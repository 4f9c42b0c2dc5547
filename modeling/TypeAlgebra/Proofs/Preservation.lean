import TypeAlgebra.Proofs.Meaning

namespace TypeAlgebra

namespace Env

open Ty (Formula Disjunctive Conjunctive Separable)

variable {limit : Int64} {p q s t : Ty} {ts cs ds parts : List Ty} {g : Atom} {v : Atom → Bool}

/--
What is kept where a formula is normalized: what it means, and all atoms as long as the formula is flat and
nothing makes them void.
-/
structure Denotes (limit : Int64) (t r : Ty) : Prop extends NormalFormula limit r where
  atoms : r.atoms ⊆ t.atoms
  conjunctive : t.Conjunctive → r.isUnion = false ∧ (r = .never ∨ t.atoms ⊆ r.atoms)
  disjunctive : t.Disjunctive → r.Disjunctive ∧ (r = .any ∨ t.atoms ⊆ r.atoms)
  eval : ∀ v, r.eval v = t.eval v

variable {f : Ty → Ty}

theorem eval_joined (hts : ∀ t ∈ ts, Normal limit t)
    (h : ∀ p ∈ Ty.alternativesEach ts, ∀ q ∈ Ty.alternativesEach ts, Below limit p q →
      p.eval v = true → q.eval v = true) :
    ((vacant limit).joined ts).eval v = true ↔ ∃ t ∈ ts, t.eval v = true := by
  have halt : (∃ t ∈ ts, t.eval v = true) ↔ ∃ p ∈ Ty.alternativesEach ts, p.eval v = true := by
    simp only [Ty.mem_alternativesEach]
    constructor
    · rintro ⟨t, ht, hv⟩
      obtain ⟨p, hp, hpv⟩ := Ty.eval_alternatives.1 hv
      exact ⟨p, ⟨t, ht, hp⟩, hpv⟩
    · rintro ⟨p, ⟨t, ht, hp⟩, hpv⟩
      exact ⟨t, ht, Ty.eval_alternatives.2 ⟨p, hp, hpv⟩⟩
  rw [joined_of_normal hts, Ty.eval_ofAlternatives, halt]
  constructor
  · rintro ⟨p, hp, hpv⟩
    exact ⟨p, (mem_joinParts hp).1, hpv⟩
  · rintro ⟨p, hp, hpv⟩
    obtain ⟨k, hk, hpk⟩ := joinParts_cover (alternativesEach_of_child Normal.child hts) p hp
      (Ty.not_never_of_eval hpv)
    exact ⟨k, hk, h p hp k (mem_joinParts hk).1 hpk hpv⟩

theorem alternatives_antichain (ht : Normal limit t) (hp : p ∈ t.alternatives) (hq : q ∈ t.alternatives)
    (h : Below limit p q) : p = q := by
  cases hu : t.isUnion
  · rw [Ty.alternatives_of_not_union hu, List.mem_singleton] at hp hq
    rw [hp, hq]
  · cases t <;> cases hu
    rw [ht.alternatives_union] at hp hq
    exact ht.unionParts_sifted.eq_of_below hp hq h

/-- An alternative that is dropped for another one holds only where that one does. -/
theorem Denotes.eval_of_joinable {r r' : Ty} (hl : limit ≤ 0) (hs : Denotes limit s r)
    (ht : Denotes limit t r') (hr : s = t → r = r') (hst : s.Joinable t) (hp : p ∈ r.alternatives)
    (hq : q ∈ r'.alternatives) (h : Below limit p q) (hv : p.eval v = true) : q.eval v = true := by
  cases ha : q.isAny
  case true =>
    rw [Ty.isAny_iff.1 ha]
    rfl
  obtain ⟨hpc, hqc⟩ := hs.conjunctions ht.toNormalFormula hp hq h (Ty.not_never_of_eval hv) ha
  have hsub := (hpc.below_iff hl hqc).1 h
  have hps : p.atoms ⊆ r.atoms := fun g hg ↦ Ty.mem_atoms_alternatives.2 ⟨p, hp, hg⟩
  have hqt : q.atoms ⊆ r'.atoms := fun g hg ↦ Ty.mem_atoms_alternatives.2 ⟨q, hq, hg⟩
  obtain ⟨g, hg⟩ := hpc.exists_atom hl
  rcases hst with he | hdisj | ⟨hds, hdt⟩ | ⟨hcs, hct, hiff⟩
  · obtain rfl := hr he
    rwa [← alternatives_antichain hs.normal hp hq h]
  · exact absurd (ht.atoms (hqt (hsub hg))) (hdisj (hs.atoms (hps hg)))
  · have hpg := hs.isAtom (hs.disjunctive hds).1 hp hg
    have hqg := ht.isAtom (ht.disjunctive hdt).1 hq (hsub hg)
    rwa [hqg.eq, ← hpg.eq]
  · -- Both are intersections with all atoms of the formulas they stand for.
    obtain ⟨hru, hrn⟩ := hs.conjunctive hcs
    obtain ⟨hru', -⟩ := ht.conjunctive hct
    rw [Ty.alternatives_of_not_union hru, List.mem_singleton] at hp
    rw [Ty.alternatives_of_not_union hru', List.mem_singleton] at hq
    subst hp hq
    have hall := hrn.resolve_left fun hn ↦ by
      have := hpc.plain.2.1
      rw [hn] at this
      cases this
    have hback := hiff.1 fun g hg ↦ ht.atoms (hsub (hall hg))
    rw [hqc.eval_iff hl]
    exact fun g hg ↦ (hpc.eval_iff hl).1 hv g (hall (hback (ht.atoms hg)))

section Joined

variable (h : ∀ p ∈ parts, Denotes limit p (f p)) (hd : ∀ p ∈ parts, p.Disjunctive)

include h hd

theorem disjunctive_joined : ((vacant limit).joined (parts.map f)).Disjunctive := by
  have hn : ∀ r ∈ parts.map f, Normal limit r := List.forall_mem_map.2 fun p hp ↦ (h p hp).normal
  rw [joined_of_normal hn]
  refine Ty.disjunctive_ofAlternatives fun q hq ↦ ?_
  obtain ⟨r, hr, hqr⟩ := Ty.mem_alternativesEach.1 (mem_joinParts hq).1
  obtain ⟨p, hp, rfl⟩ := List.mem_map.1 hr
  exact Ty.alternative_of_child Disjunctive.child ((h p hp).disjunctive (hd p hp)).1 hqr

/-- A union without intersections keeps the atoms of its parts, unless it is `any`. -/
theorem atoms_joined (hl : limit ≤ 0) : (vacant limit).joined (parts.map f) = .any ∨
    (Ty.union parts).atoms ⊆ ((vacant limit).joined (parts.map f)).atoms := by
  have hn : ∀ r ∈ parts.map f, Normal limit r := List.forall_mem_map.2 fun p hp ↦ (h p hp).normal
  have hcover := joinParts_cover (alternativesEach_of_child Normal.child hn)
  have mem_alternatives {q : Ty} :
      q ∈ Ty.alternativesEach (parts.map f) ↔ ∃ p ∈ parts, q ∈ (f p).alternatives := by
    simp [Ty.mem_alternativesEach]
  rw [joined_of_normal hn]
  cases hany : ((vacant limit).joinParts (parts.map f)).any Ty.isAny
  case true =>
    left
    unfold Ty.ofAlternatives
    rw [hany, if_pos rfl]
  have hplain : ∀ k ∈ (vacant limit).joinParts (parts.map f), k.isAny = false :=
    fun k hk ↦ Bool.eq_false_of_not_eq_true (List.any_eq_false.1 hany k hk)
  right
  intro g hg
  obtain ⟨p, hp, hgp⟩ := Ty.mem_atomsEach.1 hg
  obtain ⟨hfd, hfa⟩ := (h p hp).disjunctive (hd p hp)
  have hgr : g ∈ (f p).atoms := by
    refine hfa.resolve_left (fun he ↦ ?_) hgp
    have hmem : Ty.any ∈ (f p).alternatives := by
      rw [he]
      exact List.mem_singleton_self _
    obtain ⟨k, hk, hak⟩ := hcover .any (mem_alternatives.2 ⟨p, hp, hmem⟩) rfl
    have hka := hplain k hk
    have hkn := alternativesEach_of_child Normal.child hn k (mem_joinParts hk).1
    rw [eq_any_of_below hkn hak] at hka
    cases hka
  obtain ⟨q, hq, hgq⟩ := Ty.mem_atoms_alternatives.1 hgr
  have hqn := (Ty.plain_of_mem_atoms hgq).1
  obtain ⟨k, hk, hqk⟩ := hcover q (mem_alternatives.2 ⟨p, hp, hq⟩) hqn
  obtain ⟨p', hp', hkp'⟩ := mem_alternatives.1 (mem_joinParts hk).1
  obtain ⟨hqc, hkc⟩ := (h p hp).conjunctions (h p' hp').toNormalFormula hq hkp' hqk hqn (hplain k hk)
  exact Ty.mem_atoms_ofAlternatives hplain hk ((hqc.below_iff hl hkc).1 hqk hgq)

end Joined

theorem Denotes.joined (hl : limit ≤ 0) (h : ∀ p ∈ parts, Denotes limit p (f p))
    (hj : ∀ p ∈ parts, ∀ q ∈ parts, p.Joinable q) :
    Denotes limit (.union parts) ((vacant limit).joined (parts.map f)) := by
  have hn : ∀ r ∈ parts.map f, Normal limit r := List.forall_mem_map.2 fun p hp ↦ (h p hp).normal
  have hclosed := joined_closed (Ty.closed_formula (Ty.union parts).atoms)
    (fun r hr ↦ (hn r hr).settled.sound) (fun r hr ↦ (hn r hr).canonical)
    (List.forall_mem_map.2 fun p hp ↦
      ⟨(h p hp).formula, fun g hg ↦ Ty.mem_atomsEach.2 ⟨p, hp, (h p hp).atoms hg⟩⟩)
  refine ⟨⟨normal_joined hn, hclosed.1⟩, hclosed.2, nofun, fun hd ↦ ?_, fun v ↦ ?_⟩
  · exact ⟨disjunctive_joined h fun p hp ↦ hd.child hp, atoms_joined h (fun p hp ↦ hd.child hp) hl⟩
  · have hmap : (∃ r ∈ parts.map f, r.eval v = true) ↔ ∃ p ∈ parts, (f p).eval v = true := by simp
    rw [Bool.eq_iff_iff, eval_joined hn, Ty.eval_union, hmap]
    · exact exists_congr fun p ↦ and_congr_right fun hp ↦ by rw [(h p hp).eval]
    · intro p hp q hq hpq hv
      obtain ⟨r, hr, hp⟩ := Ty.mem_alternativesEach.1 hp
      obtain ⟨r', hr', hq⟩ := Ty.mem_alternativesEach.1 hq
      obtain ⟨a, ha, rfl⟩ := List.mem_map.1 hr
      obtain ⟨b, hb, rfl⟩ := List.mem_map.1 hr'
      exact (h a ha).eval_of_joinable hl (h b hb) (congrArg f) (hj a ha b hb) hp hq hpq hv

theorem factors_antichain (ht : Normal limit t) (hp : p ∈ t.factors) (hq : q ∈ t.factors)
    (h : Below limit p q) : p = q := by
  cases hi : t.isInter
  · rw [Ty.factors_of_not_inter hi, List.mem_singleton] at hp hq
    rw [hp, hq]
  · cases t <;> cases hi
    rw [ht.factors_inter] at hp hq
    exact ht.interParts_sifted.eq_of_below hp hq h

structure Remnant (limit : Int64) (t r : Ty) : Prop extends NormalFormula limit r where
  mem : r ∈ t.factors
  plain : r.isNever = false ∧ r.isAny = false

theorem NormalFormula.remnant (h : NormalFormula limit t) (hp : p ∈ t.factors) (hn : p.isNever = false)
    (ha : p.isAny = false) : Remnant limit t p :=
  ⟨Ty.factor_of_child NormalFormula.child h hp, hp, hn, ha⟩

theorem NormalFormula.remnant_isAtom (hl : limit ≤ 0) (h : NormalFormula limit t) (hu : t.isUnion = false)
    (hp : Remnant limit t p) : ∃ g, p.IsAtom g := by
  cases hn : t.isNever
  · obtain ⟨hpu, hpi, hpn⟩ := factor_plain hl h.normal hu hn hp.mem
    exact hp.exists_isAtom hpu hpi hpn hp.plain.2
  · obtain ⟨hpn, -⟩ := hp.plain
    have hmem := hp.mem
    rw [Ty.isNever_iff.1 hn] at hmem
    rw [List.mem_singleton.1 hmem] at hpn
    cases hpn

theorem Denotes.remnant_disjunctive {r : Ty} (hl : limit ≤ 0) (h : Denotes limit t r) (hf : t.Flat)
    (hp : Remnant limit r p) : p.Disjunctive := by
  rcases hf with hc | hd
  · obtain ⟨g, hg⟩ := h.remnant_isAtom hl (h.conjunctive hc).1 hp
    exact hg.disjunctive
  · exact Ty.factor_of_child Disjunctive.child (h.disjunctive hd).1 hp.mem

theorem Remnant.eq_of_disjunctive {r : Ty} (hd : r.Disjunctive) (hp : Remnant limit r p) : p = r := by
  have hmem := hp.mem
  rwa [Ty.factors_of_not_inter hd.not_inter, List.mem_singleton] at hmem

theorem Remnant.atoms {r : Ty} (hp : Remnant limit r p) : p.atoms ⊆ r.atoms :=
  fun _ hg ↦ Ty.mem_atoms_factors.2 ⟨p, hp.mem, hg⟩

theorem NormalFormula.eq_of_common_atom {r : Ty} (hl : limit ≤ 0) (h : NormalFormula limit r)
    (hp : Remnant limit r p) (hq : Remnant limit r q) (hgp : g ∈ p.atoms) (hgq : g ∈ q.atoms) : p = q := by
  cases hi : r.isInter
  · have hpm := hp.mem
    have hqm := hq.mem
    rw [Ty.factors_of_not_inter hi, List.mem_singleton] at hpm hqm
    rw [hpm, hqm]
  · have hu : r.isUnion = false := by cases r <;> first | rfl | cases hi
    obtain ⟨f, hf⟩ := h.remnant_isAtom hl hu hp
    obtain ⟨f', hf'⟩ := h.remnant_isAtom hl hu hq
    rw [hf.eq, hf'.eq, ← hf.eq_of_mem hgp, ← hf'.eq_of_mem hgq]

section Meetable

variable {r r' : Ty} (hl : limit ≤ 0) (hs : Denotes limit s r) (ht : Denotes limit t r')
  (hr : s = t → r = r') (hst : s.Meetable t) (hp : Remnant limit r p) (hq : Remnant limit r' q)

include hl hs ht hp hq

/-- Of what is left of flat formulas with a common atom, one has all atoms of the other. -/
theorem atoms_subset_of_flat (hfs : s.Flat) (hft : t.Flat)
    (hsub : s.Disjunctive → t.Disjunctive → s.atoms ⊆ t.atoms ∨ t.atoms ⊆ s.atoms)
    (hgp : g ∈ p.atoms) (hgq : g ∈ q.atoms) : p.atoms ⊆ q.atoms ∨ q.atoms ⊆ p.atoms := by
  rcases hfs with hcs | hds
  · obtain ⟨f, hf⟩ := hs.remnant_isAtom hl (hs.conjunctive hcs).1 hp
    exact .inl fun g' hg' ↦ by rwa [hf.eq_of_mem hg', ← hf.eq_of_mem hgp]
  rcases hft with hct | hdt
  · obtain ⟨f, hf⟩ := ht.remnant_isAtom hl (ht.conjunctive hct).1 hq
    exact .inr fun g' hg' ↦ by rwa [hf.eq_of_mem hg', ← hf.eq_of_mem hgq]
  obtain ⟨hrd, hra⟩ := hs.disjunctive hds
  obtain ⟨hrd', hra'⟩ := ht.disjunctive hdt
  obtain rfl := hp.eq_of_disjunctive hrd
  obtain rfl := hq.eq_of_disjunctive hrd'
  have not_any {u : Ty} (ha : u.isAny = false) : u ≠ .any := by
    rintro rfl
    cases ha
  rcases hsub hds hdt with hsub | hsub
  · exact .inl fun g hg ↦ hra'.resolve_left (not_any hq.plain.2) (hsub (hs.atoms hg))
  · exact .inr fun g hg ↦ hra.resolve_left (not_any hp.plain.2) (hsub (ht.atoms hg))

include hr hst

/-- A part that is dropped holds where the one does that it is dropped for. -/
theorem eval_of_meetable (h : Below limit p q) (hv : p.eval v = true) : q.eval v = true := by
  rcases hst with he | hdisj | ⟨-, hft, -⟩
  · have hqm := hq.mem
    rw [← hr he] at hqm
    rwa [← factors_antichain hs.normal hp.mem hqm h]
  · obtain ⟨g, hgp, hgq⟩ := hp.exists_atom_of_below hl hq.toNormalFormula h hp.plain.1 hq.plain.2
    exact absurd (ht.atoms (hq.atoms hgq)) (hdisj (hs.atoms (hp.atoms hgp)))
  · exact hp.eval_of_below hl hq.toNormalFormula (ht.remnant_disjunctive hl hft hq) h hv

/-- Unrelated parts that are left have no atoms in common. -/
theorem disjoint_of_meetable (h : Apart (vacant limit).below p q) : p.atoms.Disjoint q.atoms := by
  have hpq : ¬Below limit p q := fun hb ↦ nomatch h.1.symm.trans hb
  have hqp : ¬Below limit q p := fun hb ↦ nomatch h.2.symm.trans hb
  intro g hgp hgq
  rcases hst with he | hdisj | ⟨hfs, hft, hsub⟩
  · rw [← hr he] at hq
    obtain rfl := hs.eq_of_common_atom hl hp hq hgp hgq
    exact hpq (below_refl hp.normal)
  · exact hdisj (hs.atoms (hp.atoms hgp)) (ht.atoms (hq.atoms hgq))
  · have hpd := hs.remnant_disjunctive hl hfs hp
    have hqd := ht.remnant_disjunctive hl hft hq
    rcases atoms_subset_of_flat hl hs ht hp hq hfs hft hsub hgp hgq with hatoms | hatoms
    · exact hpq (hp.below_of_atoms hl hq.toNormalFormula hpd hqd hp.plain.2 hatoms)
    · exact hqp (hq.below_of_atoms hl hp.toNormalFormula hqd hpd hq.plain.2 hatoms)

end Meetable

/-- The intersection of types that are not unions keeps their atoms, unless it is `never`. -/
theorem met_conjunctive (hl : limit ≤ 0) (hts : ∀ t ∈ ts, NormalFormula limit t)
    (hu : ∀ t ∈ ts, t.isUnion = false) (hn : (meetFactors ts).any Ty.isNever = false) :
    ((vacant limit).met ts).isUnion = false ∧ ((vacant limit).met ts).isNever = false ∧
      ∀ t ∈ ts, t.atoms ⊆ ((vacant limit).met ts).atoms := by
  have hnormal : ∀ t ∈ ts, Normal limit t := fun t ht ↦ (hts t ht).normal
  have hfn := meetFactors_of_child Normal.child hnormal
  have hatom : ∀ q ∈ meetFactors ts, ∃ g, q.IsAtom g := by
    intro q hq
    obtain ⟨hqf, hqa⟩ := mem_meetFactors.1 hq
    obtain ⟨t, ht, hqt⟩ := Ty.mem_factorsEach.1 hqf
    have hqn := Bool.eq_false_of_not_eq_true (List.any_eq_false.1 hn q hq)
    exact (hts t ht).remnant_isAtom hl (hu t ht) ((hts t ht).remnant hqt hqn hqa)
  have hparts : ∀ k ∈ (vacant limit).meetParts ts, k.isUnion = false ∧ k.isNever = false := by
    intro k hk
    obtain ⟨g, hg⟩ := hatom k (mem_meetParts hk)
    exact ⟨hg.plain.1, hg.plain.2.2.1⟩
  rw [met_undistributed hnormal hn (.inr fun k hk ↦ (hparts k hk).1)]
  obtain ⟨hou, hon⟩ := Ty.ofFactors_plain hparts
  refine ⟨hou, hon, fun t ht g hg ↦ ?_⟩
  obtain ⟨q, hq, hgq⟩ := Ty.mem_atoms_factors.1 hg
  have hqf : q ∈ meetFactors ts :=
    mem_meetFactors.2 ⟨Ty.mem_factorsEach.2 ⟨t, ht, hq⟩, (Ty.plain_of_mem_atoms hgq).2⟩
  obtain ⟨k, hk, hkq⟩ := meetParts_cover hfn q hqf
  obtain ⟨f, hf⟩ := hatom q hqf
  obtain ⟨f', hf'⟩ := hatom k (mem_meetParts hk)
  obtain rfl := (isAtom_below (hfn k (mem_meetParts hk)) (hfn q hqf) hf' hf).1 hkq
  exact Ty.mem_atoms_ofFactors hk hgq

theorem met_of_never (hts : ∀ t ∈ ts, Normal limit t) (hn : (meetFactors ts).any Ty.isNever = true) :
    (vacant limit).met ts = .never := by
  rw [met_eq (free_inter.2 fun t ht ↦ (hts t ht).free).founded, hn, if_pos rfl]

theorem met_conjunctions (hl : limit ≤ 0) (hcs : ∀ c ∈ cs, Conjunction limit c) (hne : cs ≠ []) :
    Conjunction limit ((vacant limit).met cs) ∧
      ∀ g, g ∈ ((vacant limit).met cs).atoms ↔ ∃ c ∈ cs, g ∈ c.atoms := by
  have hn : ∀ c ∈ cs, Normal limit c := fun c hc ↦ (hcs c hc).normal
  have hnever : (meetFactors cs).any Ty.isNever = false := by
    refine List.any_eq_false.2 fun q hq ↦ ?_
    obtain ⟨c, hc, hqc⟩ := Ty.mem_factorsEach.1 (mem_meetFactors.1 hq).1
    exact Bool.not_eq_true _ ▸ factor_not_never (hn c hc) (hcs c hc).plain.2.1 hqc
  obtain ⟨hu, hnv, hatoms⟩ := met_conjunctive hl (fun c hc ↦ (hcs c hc).toNormalFormula)
    (fun c hc ↦ (hcs c hc).plain.1) hnever
  obtain ⟨-, -, hf, hsub⟩ := met_closed (Ty.closed_formula (Ty.inter cs).atoms)
    (fun c hc ↦ (hn c hc).settled.sound) (fun c hc ↦ (hn c hc).canonical) fun c hc ↦
      ⟨(hcs c hc).formula, fun g hg ↦ Ty.mem_atomsEach.2 ⟨c, hc, hg⟩⟩
  refine ⟨⟨⟨normal_met hn, hf⟩, hu, hnv, ?_⟩, fun g ↦ ⟨fun hg ↦ Ty.mem_atomsEach.1 (hsub hg), ?_⟩⟩
  · obtain ⟨c, hc⟩ := List.exists_mem_of_ne_nil cs hne
    obtain ⟨g, hg⟩ := (hcs c hc).exists_atom hl
    exact (Ty.plain_of_mem_atoms (hatoms c hc hg)).2
  · rintro ⟨c, hc, hg⟩
    exact hatoms c hc hg

theorem eval_met_conjunctions (hl : limit ≤ 0) (hcs : ∀ c ∈ cs, Conjunction limit c) (hne : cs ≠ []) :
    ((vacant limit).met cs).eval v = true ↔ ∀ c ∈ cs, c.eval v = true := by
  obtain ⟨hmet, hatoms⟩ := met_conjunctions hl hcs hne
  rw [hmet.eval_iff hl]
  constructor
  · exact fun h c hc ↦ ((hcs c hc).eval_iff hl).2 fun g hg ↦ h g ((hatoms g).2 ⟨c, hc, hg⟩)
  · intro h g hg
    obtain ⟨c, hc, hgc⟩ := (hatoms g).1 hg
    exact ((hcs c hc).eval_iff hl).1 (h c hc) g hgc

theorem eval_picks : (∀ p ∈ parts, p.eval v = true) ↔ ∃ cs, Picks cs parts ∧ ∀ c ∈ cs, c.eval v = true := by
  induction parts with
  | nil => exact ⟨fun _ ↦ ⟨[], .nil, nofun⟩, fun _ ↦ nofun⟩
  | cons p parts ih =>
    rw [List.forall_mem_cons, ih, Ty.eval_alternatives]
    constructor
    · rintro ⟨⟨c, hc, hv⟩, cs, hcs, hvs⟩
      exact ⟨c :: cs, .cons hc hcs, List.forall_mem_cons.2 ⟨hv, hvs⟩⟩
    · rintro ⟨_, _ | ⟨hc, hcs⟩, hv⟩
      obtain ⟨hv, hvs⟩ := List.forall_mem_cons.1 hv
      exact ⟨⟨_, hc, hv⟩, _, hcs, hvs⟩

structure Separated (limit : Int64) (parts : List Ty) : Prop where
  formula : ∀ p ∈ parts, NormalFormula limit p
  plain : ∀ p ∈ parts, p.isNever = false ∧ p.isAny = false
  disjoint : parts.Pairwise fun p q ↦ p.atoms.Disjoint q.atoms

theorem Separated.conjunction (h : Separated limit parts) (hp : p ∈ parts) (hs : s ∈ p.alternatives) :
    Conjunction limit s := by
  obtain ⟨hn, ha⟩ := h.plain p hp
  obtain ⟨-, hsn, hsa⟩ := alternative_plain (h.formula p hp).normal hn ha hs
  exact (h.formula p hp).conjunction hs hsn hsa

/-- No two choices from separated parts are related. -/
theorem Separated.eq_of_atoms (hl : limit ≤ 0) (hsep : Separated limit parts)
    (hcs : Picks cs parts) (hds : Picks ds parts) (h : ∀ c ∈ cs, ∀ g ∈ c.atoms, ∃ d ∈ ds, g ∈ d.atoms) :
    cs = ds := by
  induction hcs generalizing ds with
  | nil => exact (List.forall₂_nil_right_iff.1 hds).symm
  | @cons c p cs parts hcp hcs ih =>
    obtain ⟨d, ds, hdp, hds', rfl⟩ := List.forall₂_cons_right_iff.1 hds
    obtain ⟨hpn, hformula⟩ := List.forall_mem_cons.1 hsep.formula
    obtain ⟨-, hplain⟩ := List.forall_mem_cons.1 hsep.plain
    obtain ⟨hfirst, hdisjoint⟩ := List.pairwise_cons.1 hsep.disjoint
    -- An atom of what is chosen from the first part is in nothing that is chosen from the other ones.
    have hinside {c : Ty} {g : Atom} (hc : c ∈ p.alternatives) (hg : g ∈ c.atoms) : g ∈ p.atoms :=
      Ty.mem_atoms_alternatives.2 ⟨c, hc, hg⟩
    have houtside {cs : List Ty} {c : Ty} {g : Atom} (hcs : Picks cs parts) (hc : c ∈ cs) (hg : g ∈ c.atoms) :
        g ∉ p.atoms := by
      obtain ⟨q, hq, hcq⟩ := hcs.mem hc
      exact fun hgp ↦ hfirst q hq hgp (Ty.mem_atoms_alternatives.2 ⟨c, hcq, hg⟩)
    have hcd : c.atoms ⊆ d.atoms := by
      intro g hg
      obtain ⟨e, he, hge⟩ := h c List.mem_cons_self g hg
      rcases List.mem_cons.1 he with rfl | he
      · exact hge
      · exact absurd (hinside hcp hg) (houtside hds' he hge)
    have hrest : ∀ c ∈ cs, ∀ g ∈ c.atoms, ∃ d ∈ ds, g ∈ d.atoms := by
      intro b hb g hg
      obtain ⟨e, he, hge⟩ := h b (List.mem_cons_of_mem c hb) g hg
      rcases List.mem_cons.1 he with rfl | he
      · exact absurd (hinside hdp hge) (houtside hcs hb hg)
      · exact ⟨e, he, hge⟩
    have hbelow := ((hsep.conjunction List.mem_cons_self hcp).below_iff hl
      (hsep.conjunction List.mem_cons_self hdp)).2 hcd
    rw [alternatives_antichain hpn.normal hcp hdp hbelow, ih ⟨hformula, hplain, hdisjoint⟩ hds' hrest]

/-- The types of a disjunct of separated parts are conjunctions, chosen from the parts. -/
theorem Separated.disjunct (h : Separated limit parts) (hne : parts ≠ []) (hds : ds ∈ disjuncts parts) :
    (∀ d ∈ ds, Conjunction limit d) ∧ ds ≠ [] ∧ ∃ cs, Picks cs parts ∧ ds.Perm cs := by
  obtain ⟨cs, hcs, hperm⟩ := exists_picks (fun p hp ↦ (h.formula p hp).normal) hds
  refine ⟨fun d hd ↦ ?_, ?_, cs, hcs, hperm⟩
  · obtain ⟨p, hp, hdp⟩ := hcs.mem (hperm.mem_iff.1 hd)
    exact h.conjunction hp hdp
  · rintro rfl
    rw [← hperm.nil_eq] at hcs
    exact hne (List.forall₂_nil_left_iff.1 hcs)

/-- Disjuncts of separated parts with related intersections are made of the same types. -/
theorem Separated.perm_of_below {es : List Ty} (hl : limit ≤ 0) (h : Separated limit parts) (hne : parts ≠ [])
    (hds : ds ∈ disjuncts parts) (hes : es ∈ disjuncts parts)
    (hb : Below limit ((vacant limit).met ds) ((vacant limit).met es)) : ds.Perm es := by
  obtain ⟨hd, hdne, cs, hcs, hperm⟩ := h.disjunct hne hds
  obtain ⟨he, hene, cs', hcs', hperm'⟩ := h.disjunct hne hes
  obtain ⟨hdm, hdatoms⟩ := met_conjunctions hl hd hdne
  obtain ⟨hem, heatoms⟩ := met_conjunctions hl he hene
  have hsub := (hdm.below_iff hl hem).1 hb
  obtain rfl : cs = cs' := by
    refine h.eq_of_atoms hl hcs hcs' fun c hc g hg ↦ ?_
    obtain ⟨e, he, hge⟩ := (heatoms g).1 (hsub ((hdatoms g).2 ⟨c, hperm.mem_iff.2 hc, hg⟩))
    exact ⟨e, hperm'.mem_iff.1 he, hge⟩
  exact hperm.trans hperm'.symm

/-- What is distributed over separated parts holds where all of them do. -/
theorem Separated.eval_disjuncts (hl : limit ≤ 0) (h : Separated limit parts) (hne : parts ≠ []) :
    ((vacant limit).joined ((disjuncts parts).map (vacant limit).met)).eval v = true ↔
      ∀ p ∈ parts, p.eval v = true := by
  have heval {ds : List Ty} (hds : ds ∈ disjuncts parts) :
      ((vacant limit).met ds).eval v = true ↔ ∀ d ∈ ds, d.eval v = true := by
    obtain ⟨hd, hdne, -⟩ := h.disjunct hne hds
    exact eval_met_conjunctions hl hd hdne
  have hmet : ∀ r ∈ (disjuncts parts).map (vacant limit).met, Conjunction limit r := by
    refine List.forall_mem_map.2 fun ds hds ↦ ?_
    obtain ⟨hd, hdne, -⟩ := h.disjunct hne hds
    exact (met_conjunctions hl hd hdne).1
  rw [eval_joined fun r hr ↦ (hmet r hr).normal, eval_picks]
  · constructor
    · rintro ⟨r, hr, hv⟩
      obtain ⟨ds, hds, rfl⟩ := List.mem_map.1 hr
      obtain ⟨-, -, cs, hcs, hperm⟩ := h.disjunct hne hds
      exact ⟨cs, hcs, fun c hc ↦ (heval hds).1 hv c (hperm.mem_iff.2 hc)⟩
    · rintro ⟨cs, hcs, hv⟩
      obtain ⟨ds, hds, hperm⟩ := hcs.exists_disjunct fun p hp ↦ (h.formula p hp).normal
      exact ⟨_, List.mem_map_of_mem hds, (heval hds).2 fun d hd ↦ hv d (hperm.mem_iff.1 hd)⟩
  · rw [Ty.alternativesEach_of_not_union fun r hr ↦ (hmet r hr).plain.1]
    intro r hr r' hr' hb hv
    obtain ⟨ds, hds, rfl⟩ := List.mem_map.1 hr
    obtain ⟨es, hes, rfl⟩ := List.mem_map.1 hr'
    have hperm := h.perm_of_below hl hne hds hes hb
    exact (heval hes).2 fun e he ↦ (heval hds).1 hv e (hperm.mem_iff.2 he)

/-- An intersection of which the parts that are left are separated is distributed without loss. -/
theorem eval_met (hl : limit ≤ 0) (hts : ∀ t ∈ ts, Normal limit t)
    (hn : (meetFactors ts).any Ty.isNever = false) (h : Separated limit ((vacant limit).meetParts ts)) :
    ((vacant limit).met ts).eval v = true ↔ ∀ p ∈ (vacant limit).meetParts ts, p.eval v = true := by
  by_cases h₂ : 2 ≤ ((vacant limit).meetParts ts).length
  · rw [met_eq_joined hl hts hn h₂, h.eval_disjuncts hl (List.ne_nil_of_length_pos (Nat.zero_lt_of_lt h₂))]
  · rw [met_undistributed hts hn (.inl (by omega)), Ty.eval_ofFactors]

section Met

variable (hl : limit ≤ 0) (h : ∀ p ∈ parts, Denotes limit p (f p))

include h

theorem exists_remnant (hn : (meetFactors (parts.map f)).any Ty.isNever = false)
    (hq : q ∈ meetFactors (parts.map f)) : ∃ p ∈ parts, Remnant limit (f p) q := by
  obtain ⟨hqf, hqa⟩ := mem_meetFactors.1 hq
  obtain ⟨r, hr, hqr⟩ := Ty.mem_factorsEach.1 hqf
  obtain ⟨p, hp, rfl⟩ := List.mem_map.1 hr
  have hqn := Bool.eq_false_of_not_eq_true (List.any_eq_false.1 hn q hq)
  exact ⟨p, hp, (h p hp).remnant hqr hqn hqa⟩

include hl

theorem separated_meetParts (hm : ∀ p ∈ parts, ∀ q ∈ parts, p.Meetable q)
    (hn : (meetFactors (parts.map f)).any Ty.isNever = false) :
    Separated limit ((vacant limit).meetParts (parts.map f)) := by
  have hrem {q : Ty} (hq : q ∈ (vacant limit).meetParts (parts.map f)) :=
    exists_remnant h hn (mem_meetParts hq)
  have hsift := meetParts_sifted (List.forall_mem_map.2 fun p hp ↦ (h p hp).normal.settled.sound)
  refine ⟨fun q hq ↦ ?_, fun q hq ↦ ?_, hsift.apart.imp_of_mem fun hq hq' hapart ↦ ?_⟩
  · obtain ⟨p, -, hqr⟩ := hrem hq
    exact hqr.toNormalFormula
  · obtain ⟨p, -, hqr⟩ := hrem hq
    exact hqr.plain
  · obtain ⟨p, hp, hqr⟩ := hrem hq
    obtain ⟨p', hp', hqr'⟩ := hrem hq'
    exact disjoint_of_meetable hl (h p hp) (h p' hp') (congrArg f) (hm p hp p' hp') hqr hqr' hapart

/-- What is left of the parts of an intersection holds where all of the parts do. -/
theorem eval_meetParts (hm : ∀ p ∈ parts, ∀ q ∈ parts, p.Meetable q)
    (hn : (meetFactors (parts.map f)).any Ty.isNever = false) :
    (∀ q ∈ (vacant limit).meetParts (parts.map f), q.eval v = true) ↔ ∀ p ∈ parts, p.eval v = true := by
  constructor
  · intro hv p hp
    rw [← (h p hp).eval, Ty.eval_factors]
    intro q hq
    cases ha : q.isAny
    · have hqf : q ∈ meetFactors (parts.map f) :=
        mem_meetFactors.2 ⟨Ty.mem_factorsEach.2 ⟨f p, List.mem_map_of_mem hp, hq⟩, ha⟩
      have hqn := Bool.eq_false_of_not_eq_true (List.any_eq_false.1 hn q hqf)
      have hnormal : ∀ r ∈ parts.map f, Normal limit r := List.forall_mem_map.2 fun p hp ↦ (h p hp).normal
      obtain ⟨k, hk, hkq⟩ := meetParts_cover (meetFactors_of_child Normal.child hnormal) q hqf
      obtain ⟨p', hp', hkr⟩ := exists_remnant h hn (mem_meetParts hk)
      exact eval_of_meetable hl (h p' hp') (h p hp) (congrArg f) (hm p' hp' p hp) hkr
        ((h p hp).remnant hq hqn ha) hkq (hv k hk)
    · rw [Ty.isAny_iff.1 ha]
      rfl
  · intro hv q hq
    obtain ⟨p, hp, hqr⟩ := exists_remnant h hn (mem_meetParts hq)
    have hpv := hv p hp
    rw [← (h p hp).eval] at hpv
    exact Ty.eval_factors.1 hpv q hqr.mem

theorem Denotes.met (hm : ∀ p ∈ parts, ∀ q ∈ parts, p.Meetable q) :
    Denotes limit (.inter parts) ((vacant limit).met (parts.map f)) := by
  have hnf : ∀ r ∈ parts.map f, NormalFormula limit r :=
    List.forall_mem_map.2 fun p hp ↦ (h p hp).toNormalFormula
  have hnormal : ∀ r ∈ parts.map f, Normal limit r := fun r hr ↦ (hnf r hr).normal
  obtain ⟨-, -, hformula, hatoms⟩ := met_closed (Ty.closed_formula (Ty.inter parts).atoms)
    (fun r hr ↦ (hnormal r hr).settled.sound) (fun r hr ↦ (hnormal r hr).canonical)
    (List.forall_mem_map.2 fun p hp ↦
      ⟨(h p hp).formula, fun g hg ↦ Ty.mem_atomsEach.2 ⟨p, hp, (h p hp).atoms hg⟩⟩)
  refine ⟨⟨normal_met hnormal, hformula⟩, hatoms, fun hc ↦ ?_, nofun, fun v ↦ ?_⟩
  · cases hn : (meetFactors (parts.map f)).any Ty.isNever
    · have hu : ∀ r ∈ parts.map f, r.isUnion = false :=
        List.forall_mem_map.2 fun p hp ↦ ((h p hp).conjunctive (hc.child hp)).1
      obtain ⟨hmu, -, hmet⟩ := met_conjunctive hl hnf hu hn
      refine ⟨hmu, .inr fun g hg ↦ ?_⟩
      obtain ⟨p, hp, hgp⟩ := Ty.mem_atomsEach.1 hg
      refine hmet (f p) (List.mem_map_of_mem hp) (((h p hp).conjunctive (hc.child hp)).2.resolve_left ?_ hgp)
      intro he
      have hfactor : Ty.never ∈ (f p).factors := by
        rw [he]
        exact List.mem_singleton_self _
      have hnever : Ty.never ∈ meetFactors (parts.map f) :=
        mem_meetFactors.2 ⟨Ty.mem_factorsEach.2 ⟨f p, List.mem_map_of_mem hp, hfactor⟩, rfl⟩
      exact List.any_eq_false.1 hn _ hnever rfl
    · rw [met_of_never hnormal hn]
      exact ⟨rfl, .inl rfl⟩
  · rw [Bool.eq_iff_iff, Ty.eval_inter]
    cases hn : (meetFactors (parts.map f)).any Ty.isNever
    · rw [eval_met hl hnormal hn (separated_meetParts hl h hm hn), eval_meetParts hl h hm hn]
    · rw [met_of_never hnormal hn]
      refine ⟨nofun, fun hv ↦ ?_⟩
      obtain ⟨q, hq, hqn⟩ := List.any_eq_true.1 hn
      obtain ⟨r, hr, hqr⟩ := Ty.mem_factorsEach.1 (mem_meetFactors.1 hq).1
      obtain ⟨p, hp, rfl⟩ := List.mem_map.1 hr
      have hpv := hv p hp
      rw [← (h p hp).eval] at hpv
      cases hqn.symm.trans (Ty.not_never_of_eval (Ty.eval_factors.1 hpv q hqr))

end Met

theorem denotes_self (ht : NormalFormula limit s) (ha : s.atoms = t.atoms) (he : ∀ v, s.eval v = t.eval v)
    (hu : s.isUnion = false) (hd : s.Disjunctive) : Denotes limit t s :=
  ⟨ht, ha ▸ List.Subset.refl _, fun _ ↦ ⟨hu, .inr (ha ▸ List.Subset.refl _)⟩,
    fun _ ↦ ⟨hd, .inr (ha ▸ List.Subset.refl _)⟩, he⟩

variable {env : Env}

theorem each_denotes
    (h : ∀ p ∈ parts, (env.normalize p).Ends fun r ↦ env.Free r ∧ Denotes env.limit p r.detached) :
    ∃ f : Ty → Ty, (∀ p ∈ parts, (env.normalize p).outcome = .ok (f p)) ∧ (∀ r ∈ parts.map f, env.Free r) ∧
      ∀ p ∈ parts, Denotes env.limit p (Ty.detached (f p)) := by
  have hanswer : ∀ p ∈ parts, (env.normalize p).outcome = .ok (answer (env.normalize p).outcome) ∧
      env.Free (answer (env.normalize p).outcome) ∧
      Denotes env.limit p (answer (env.normalize p).outcome).detached := by
    intro p hp
    obtain ⟨r, hr, hfree, hd⟩ := h p hp
    rw [hr]
    exact ⟨rfl, hfree, hd⟩
  exact ⟨fun p ↦ answer (env.normalize p).outcome, fun p hp ↦ (hanswer p hp).1,
    List.forall_mem_map.2 fun p hp ↦ (hanswer p hp).2.1, fun p hp ↦ (hanswer p hp).2.2⟩

theorem normalize_denotes (hl : env.limit ≤ 0) (hfree : env.Free t) (h : t.Separable) :
    (env.normalize t).Ends fun r ↦ env.Free r ∧ Denotes env.limit t r.detached := by
  induction h with
  | atomic kind =>
    have hk : NormalFormula env.limit (.atomic kind) := ⟨normal_atomic _ kind, .atomic kind⟩
    exact .pure ⟨hfree, denotes_self hk rfl (fun _ ↦ rfl) rfl (.atomic kind)⟩
  | var x =>
    have hx : Normal env.limit (.var ⟨x.name, none⟩) :=
      ⟨List.forall_mem_singleton.2 rfl, .node nofun nofun, .node nofun nofun nofun⟩
    exact .pure ⟨hfree, denotes_self ⟨hx, .var _⟩ rfl (fun _ ↦ rfl) rfl (.var _)⟩
  | @union parts _ hj ih =>
    obtain ⟨f, hf, hfree, hd⟩ := each_denotes fun p hp ↦ ih p hp (hfree.child hp)
    refine ⟨env.joined (parts.map f), ?_, .joined hfree, ?_⟩
    · rw [normalize, Run.outcome_bind, normalizeEach_eq hf]
      exact join_eq (free_union.2 hfree).founded
    · rw [joined_detached hfree, List.map_map]
      exact Denotes.joined hl hd hj
  | @inter parts _ hm ih =>
    obtain ⟨f, hf, hfree, hd⟩ := each_denotes fun p hp ↦ ih p hp (hfree.child hp)
    refine ⟨env.met (parts.map f), ?_, .met hfree, ?_⟩
    · rw [normalize, Run.outcome_bind, normalizeEach_eq hf]
      exact meet_eq (free_inter.2 hfree).founded
    · rw [met_detached hfree, List.map_map]
      exact Denotes.met hl hd hm

/--
Normalization keeps the meaning of separable formulas over unbound variables, as long as nothing limits
distribution.
-/
theorem normalize_eval (hl : env.limit ≤ 0) (hfree : env.Free t) (h : t.Separable) :
    ∃ r, (env.normalize t).outcome = .ok r ∧ ∀ v, r.eval v = t.eval v := by
  obtain ⟨r, hr, -, hd⟩ := normalize_denotes hl hfree h
  exact ⟨r, hr, fun v ↦ (Ty.eval_detached r).symm.trans (hd.eval v)⟩

-- The first union absorbs the second one, and is then distributed over.
theorem normalize_eval_two_unions :
    ∃ r, ((Env.mk [⟨"x", none⟩] 0).normalize (.inter [.union [.var ⟨"x", some 0⟩, .atomic .number],
        .union [.var ⟨"x", some 0⟩, .atomic .number, .atomic .string], .atomic .boolean])).outcome = .ok r ∧
      r.eval (fun g ↦ g = .name "x" ∨ g = .kind .boolean) = true ∧
      r.eval (fun g ↦ g = .kind .string ∨ g = .kind .boolean) = false := by
  have hs : Disjunctive (.union [.var ⟨"x", some 0⟩, .atomic .number]) :=
    .union (List.forall_mem_cons.2 ⟨.var _, List.forall_mem_singleton.2 (.atomic _)⟩)
  have ht : Disjunctive (.union [.var ⟨"x", some 0⟩, .atomic .number, .atomic .string]) :=
    .union (List.forall_mem_cons.2 ⟨.var _, List.forall_mem_cons.2
      ⟨.atomic _, List.forall_mem_singleton.2 (.atomic _)⟩⟩)
  have hsep : Separable (.inter [.union [.var ⟨"x", some 0⟩, .atomic .number],
      .union [.var ⟨"x", some 0⟩, .atomic .number, .atomic .string], .atomic .boolean]) := by
    refine .inter ?_ ?_
    · simp only [List.forall_mem_cons]
      exact ⟨hs.separable, ht.separable, .atomic _, nofun⟩
    · simp only [List.forall_mem_cons]
      have hst : Ty.Meetable _ _ := .inr (.inr ⟨.inr hs, .inr ht, fun _ _ ↦ .inl (by decide)⟩)
      have hts : Ty.Meetable _ _ := .inr (.inr ⟨.inr ht, .inr hs, fun _ _ ↦ .inr (by decide)⟩)
      refine ⟨⟨.inl rfl, hst, .inr (.inl ?_), nofun⟩, ⟨hts, .inl rfl, .inr (.inl ?_), nofun⟩,
        ⟨.inr (.inl ?_), .inr (.inl ?_), .inl rfl, nofun⟩, nofun⟩ <;> exact List.disjoint_left.2 (by decide)
  obtain ⟨r, hr, hv⟩ := @normalize_eval _ ⟨[⟨"x", none⟩], 0⟩ (by decide) (by decide) hsep
  exact ⟨r, hr, hv _, hv _⟩

/-- Where an intersection is in a union with one of its parts, the part is lost. -/
theorem normalize_eval_lost_part :
    ¬∀ (env : Env) (t : Ty), env.limit ≤ 0 → env.Free t → t.Formula →
      ∃ r, (env.normalize t).outcome = .ok r ∧ ∀ v, r.eval v = t.eval v := by
  intro h
  obtain ⟨r, hr, hv⟩ := h ⟨[], 0⟩ (.union [.atomic .number, .inter [.atomic .number, .atomic .string]])
    (by decide) (by decide) (.union (List.forall_mem_cons.2 ⟨.atomic _, List.forall_mem_singleton.2 (.inter
      (List.forall_mem_cons.2 ⟨.atomic _, List.forall_mem_singleton.2 (.atomic _)⟩))⟩))
  have he : ((Env.mk [] 0).normalize
      (.union [.atomic .number, .inter [.atomic .number, .atomic .string]])).outcome =
        .ok (.inter [.atomic .number, .atomic .string]) := by decide +kernel
  obtain rfl := Except.ok.inj (he.symm.trans hr)
  cases hv fun g ↦ g = .kind .number

end Env

end TypeAlgebra
