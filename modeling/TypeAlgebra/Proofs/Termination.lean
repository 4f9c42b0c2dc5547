import TypeAlgebra.Proofs.Answers
import TypeAlgebra.Proofs.Sequence

namespace TypeAlgebra

namespace Env

variable {env : Env} {s t : Ty} {ts : List Ty}

def below (env : Env) (s t : Ty) : Bool :=
  answer (env.subtype s t).outcome

def joined (env : Env) (ts : List Ty) : Ty :=
  answer (env.join ts).outcome

def met (env : Env) (ts : List Ty) : Ty :=
  answer (env.meet ts).outcome

/-- A type distributed over the unions it is an intersection of. -/
def spread (env : Env) (t : Ty) : Ty :=
  answer (env.distributeTo (env.depth [t]) t).outcome

def ordering (env : Env) (general : Ordering) (s t : Ty) : Ordering :=
  if env.same s t then .eq
  else if env.below t s then general
  else if env.below s t then general.swap
  else compare (env.key s) (env.key t)

def joinParts (env : Env) (ts : List Ty) : List Ty :=
  sortedBy (env.ordering .gt)
    (pruned env.below ((Ty.alternativesEach ts).filter (!·.isNever)))

def meetFactors (ts : List Ty) : List Ty :=
  (Ty.factorsEach ts).filter (!·.isAny)

def meetParts (env : Env) (ts : List Ty) : List Ty :=
  sortedBy (env.ordering .lt) (pruned (fun s t ↦ env.below t s) (meetFactors ts))

structure Decided (env : Env) (d : Nat) (s t : Ty) : Prop where
  subtype : (env.subtypeTo d s t).outcome = .ok (env.below s t)
  equal : env.equalTo d s t = .ok (env.same s t)
  key : env.sortKeyTo d s = .ok (env.key s)

theorem orderBy_settled {d : Nat} {general : Ordering} {sub : Ty → Ty → Run Bool}
    (hst : (sub s t).outcome = .ok (env.below s t)) (hts : (sub t s).outcome = .ok (env.below t s))
    (he : env.equalTo d s t = .ok (env.same s t)) (hs : env.sortKeyTo d s = .ok (env.key s))
    (ht : env.sortKeyTo d t = .ok (env.key t)) :
    (env.orderBy d sub general s t).outcome = .ok (env.ordering general s t) := by
  unfold orderBy ordering
  rw [Run.outcome_bind, Run.outcome_lift, he]
  change Run.outcome (ite _ _ _) = _
  split
  · rfl
  rw [Run.outcome_bind, hts]
  change Run.outcome (ite _ _ _) = _
  split
  · rfl
  rw [Run.outcome_bind, hst]
  change Run.outcome (ite _ _ _) = _
  split
  · rfl
  rw [Run.outcome_bind, Run.outcome_lift, hs]
  change Run.outcome (_ >>= _) = _
  rw [Run.outcome_bind, Run.outcome_lift, ht]
  rfl

theorem orderBy_decided {d : Nat} {general : Ordering} (h : env.Decided d s t)
    (h' : env.Decided d t s) :
    (env.orderBy d (env.subtypeTo d) general s t).outcome = .ok (env.ordering general s t) :=
  orderBy_settled h.subtype h'.subtype h.equal h.key h'.key

theorem prune_decided {α : Type} {parts : List α} {p : α → α → Run Bool} {q : α → α → Bool}
    (h : ∀ a ∈ parts, ∀ b ∈ parts, (p a b).outcome = .ok (q a b)) :
    (prune p parts).outcome = .ok (pruned q parts) := by
  obtain ⟨as, has, hs⟩ := Run.settled.rel_prune (p := p) (q := q) (fun a b a' b' h₁ h₂ ↦ by
    obtain ⟨rfl, ha⟩ := h₁
    obtain ⟨rfl, hb⟩ := h₂
    exact ⟨_, h a ha a' hb, rfl⟩) (Coupling.forall₂_mem_same parts)
  rw [has, Coupling.eq_of_forall₂ hs]
  rfl

theorem stableSort_decided {parts : List Ty} {p : Ty → Ty → Run Ordering} {q : Ty → Ty → Ordering}
    (h : ∀ a ∈ parts, ∀ b ∈ parts, (p a b).outcome = .ok (q a b)) :
    (stableSort p parts).outcome = .ok (sortedBy q parts) := by
  obtain ⟨as, has, hs⟩ := Run.settled.rel_stableSort (p := p) (q := q) (fun a b a' b' h₁ h₂ ↦ by
    obtain ⟨rfl, ha⟩ := h₁
    obtain ⟨rfl, hb⟩ := h₂
    exact ⟨_, h a ha a' hb, rfl⟩) (Coupling.forall₂_mem_same parts)
  rw [has, Coupling.eq_of_forall₂ hs]
  rfl

theorem joinTo_succ {d : Nat}
    (h : ∀ a ∈ Ty.alternativesEach ts, ∀ b ∈ Ty.alternativesEach ts, env.Decided d a b) :
    (env.joinTo (d + 1) ts).outcome =
      (env.distributeTo d (.ofAlternatives (env.joinParts ts))).outcome := by
  have hparts {a b : Ty} (ha : a ∈ (Ty.alternativesEach ts).filter (!·.isNever))
      (hb : b ∈ (Ty.alternativesEach ts).filter (!·.isNever)) : env.Decided d a b :=
    h a (List.mem_filter.1 ha).1 b (List.mem_filter.1 hb).1
  have hsub := (pruned_sublist env.below ((Ty.alternativesEach ts).filter (!·.isNever))).subset
  have hsort : (stableSort (env.unionOrder d (env.subtypeTo d))
      (pruned env.below ((Ty.alternativesEach ts).filter (!·.isNever)))).outcome =
        .ok (env.joinParts ts) :=
    stableSort_decided fun a ha b hb ↦
      orderBy_decided (hparts (hsub ha) (hsub hb)) (hparts (hsub hb) (hsub ha))
  rw [joinTo, Run.outcome_bind, prune_decided fun a ha b hb ↦ (hparts ha hb).subtype]
  change Run.outcome (_ >>= _) = _
  rw [Run.outcome_bind, hsort]
  rfl

theorem meetTo_succ {d : Nat}
    (h : ∀ a ∈ Ty.factorsEach ts, ∀ b ∈ Ty.factorsEach ts, env.Decided d a b) :
    (env.meetTo (d + 1) ts).outcome =
      if (meetFactors ts).any Ty.isNever then .ok .never
      else (env.distributeTo d (.ofFactors (env.meetParts ts))).outcome := by
  have hparts {a b : Ty} (ha : a ∈ meetFactors ts) (hb : b ∈ meetFactors ts) : env.Decided d a b :=
    h a (List.mem_filter.1 ha).1 b (List.mem_filter.1 hb).1
  have hsub := (pruned_sublist (fun s t ↦ env.below t s) (meetFactors ts)).subset
  have hprune : (prune (fun s t ↦ env.subtypeTo d t s) (meetFactors ts)).outcome =
      .ok (pruned (fun s t ↦ env.below t s) (meetFactors ts)) :=
    prune_decided fun a ha b hb ↦ (hparts hb ha).subtype
  have hsort : (stableSort (env.interOrder d (env.subtypeTo d))
      (pruned (fun s t ↦ env.below t s) (meetFactors ts))).outcome = .ok (env.meetParts ts) :=
    stableSort_decided fun a ha b hb ↦
      orderBy_decided (hparts (hsub ha) (hsub hb)) (hparts (hsub hb) (hsub ha))
  rw [meetTo]
  change Run.outcome (if (meetFactors ts).any Ty.isNever then _ else _) = _
  split
  · rfl
  change Run.outcome (prune _ (meetFactors ts) >>= _) = _
  rw [Run.outcome_bind, hprune]
  change Run.outcome (_ >>= _) = _
  rw [Run.outcome_bind, hsort]
  rfl

theorem mapM_decided {α : Type} {as : List α} {f : α → Run Ty} {g : α → Ty}
    (h : ∀ a ∈ as, (f a).outcome = .ok (g a)) : (as.mapM f).outcome = .ok (as.map g) := by
  induction as with
  | nil => rfl
  | cons a as ih =>
    rw [List.mapM_cons, Run.outcome_bind, h a List.mem_cons_self]
    change Run.outcome (_ >>= _) = _
    rw [Run.outcome_bind, ih fun b hb ↦ h b (List.mem_cons_of_mem a hb)]
    rfl

def disjuncts (parts : List Ty) : List (List Ty) :=
  (choices (Ty.unionsIn parts)).map (· ++ Ty.othersIn parts)

def keeps (env : Env) (parts : List Ty) : Bool :=
  (Ty.unionsIn parts).isEmpty || env.exceeds (Ty.unionsIn parts)

theorem distributeTo_of_not_inter {d : Nat} (h : t.isInter = false) :
    (env.distributeTo (d + 1) t).outcome = .ok t := by
  cases t <;> first | rfl | cases h

theorem distributeTo_keep {d : Nat} {parts : List Ty} (h : env.keeps parts = true) :
    (env.distributeTo (d + 1) (.inter parts)).outcome = .ok (.inter parts) := by
  rw [distributeTo]
  change Run.outcome (if (Ty.unionsIn parts).isEmpty then _
    else if env.exceeds (Ty.unionsIn parts) then _ else _) = _
  split
  · rfl
  · next hu =>
    rw [if_pos (by simpa [keeps, hu] using h)]
    rfl

theorem distributeTo_succ {d : Nat} {parts : List Ty} {g : List Ty → Ty} (h : env.keeps parts = false)
    (hg : ∀ ds ∈ disjuncts parts, (env.meetTo d ds).outcome = .ok (g ds)) :
    (env.distributeTo (d + 1) (.inter parts)).outcome =
      (env.joinTo d ((disjuncts parts).map g)).outcome := by
  have hk := Bool.or_eq_false_iff.1 h
  rw [distributeTo]
  change Run.outcome (if (Ty.unionsIn parts).isEmpty then _
    else if env.exceeds (Ty.unionsIn parts) then _ else _) = _
  rw [if_neg (by simp [hk.1]), if_neg (by simp [hk.2]), Run.outcome_bind,
    mapM_decided (g := fun choice ↦ g (choice ++ Ty.othersIn parts))]
  · rw [disjuncts, List.map_map]
    rfl
  · exact fun choice hc ↦ hg _ (List.mem_map_of_mem hc)

end Env

namespace Ty

structure Fits (s t : Ty) : Prop where
  weight : s.weight ≤ t.weight
  vars : s.vars ⊆ t.vars

variable {r s t : Ty} {ts parts : List Ty}

theorem Fits.refl (t : Ty) : t.Fits t :=
  ⟨le_rfl, List.Subset.refl _⟩

theorem Fits.trans (h : r.Fits s) (h' : s.Fits t) : r.Fits t :=
  ⟨h.weight.trans h'.weight, fun _ hv ↦ h'.vars (h.vars hv)⟩

theorem fits_atomic (kind : Kind) (t : Ty) : (atomic kind).Fits t :=
  ⟨t.weight_pos, List.nil_subset _⟩

theorem ofAlternatives_several (ha : parts.any isAny = false) (h : 2 ≤ parts.length) :
    ofAlternatives parts = union parts := by
  match parts, h with
  | _ :: _ :: _, _ => simp [ofAlternatives, ha]

/-- A union comes to an intersection only if this is the one part that is left of it. -/
theorem eq_singleton_of_isInter (h : (ofAlternatives parts).isInter = true) :
    ∃ p, parts = [p] ∧ ofAlternatives parts = p := by
  unfold ofAlternatives at h ⊢
  split at h
  · cases h
  · split at h
    · cases h
    · next p _ => exact ⟨p, rfl, by simp_all⟩
    · cases h

theorem ofFactors_several (h : 2 ≤ parts.length) : ofFactors parts = inter parts := by
  match parts, h with
  | _ :: _ :: _, _ => rfl

/-- What holds of the parts and passes on to unions holds of their canonical union. -/
theorem ofAlternatives_closed {P : Ty → Prop} (hany : P any) (hnever : P never)
    (hunion : (∀ p ∈ parts, P p) → P (union parts)) (h : ∀ p ∈ parts, P p) : P (ofAlternatives parts) := by
  unfold ofAlternatives
  split
  · exact hany
  · split
    · exact hnever
    · exact h _ List.mem_cons_self
    · exact hunion h

theorem ofFactors_closed {P : Ty → Prop} (hany : P any) (hinter : (∀ p ∈ parts, P p) → P (inter parts))
    (h : ∀ p ∈ parts, P p) : P (ofFactors parts) := by
  unfold ofFactors
  split
  · exact hany
  · exact h _ List.mem_cons_self
  · exact hinter h

theorem fits_ofAlternatives (h : ∀ p ∈ parts, p ∈ alternativesEach ts) :
    (ofAlternatives parts).Fits (union ts) := by
  have hpart {p : Ty} (hp : p ∈ parts) : p.weight ≤ weightMax ts ∧ p.vars ⊆ (union ts).vars := by
    obtain ⟨t, ht, hpt⟩ := mem_alternativesEach.1 (h p hp)
    obtain ⟨-, hw, hv⟩ := alternatives_spec hpt
    exact ⟨hw.trans (weight_le_max ht), fun v hvp ↦ mem_vars_of_child ht (hv hvp)⟩
  unfold ofAlternatives
  split
  · exact fits_atomic _ _
  · split
    · exact fits_atomic _ _
    · obtain ⟨hw, hv⟩ := hpart List.mem_cons_self
      exact ⟨hw.trans (Nat.le_add_left _ 1), hv⟩
    · refine ⟨Nat.add_le_add_left (weightMax_le_iff.2 fun p hp ↦ (hpart hp).1) 1, fun v hv ↦ ?_⟩
      obtain ⟨p, hp, hvp⟩ := mem_varsEach.1 hv
      exact (hpart hp).2 hvp

theorem fits_ofFactors (hw : weightSum parts ≤ weightSum ts)
    (hv : ∀ p ∈ parts, p.vars ⊆ varsEach ts) : (ofFactors parts).Fits (inter ts) := by
  unfold ofFactors
  split
  · exact fits_atomic _ _
  · next p =>
    have : weightSum [p] = p.weight := rfl
    exact ⟨by simp only [weight]; omega, hv p List.mem_cons_self⟩
  · refine ⟨Nat.add_le_add_left hw 1, fun v hvm ↦ ?_⟩
    obtain ⟨p, hp, hvp⟩ := mem_varsEach.1 hvm
    exact hv p hp hvp

end Ty

namespace Env

variable {env : Env} {s t : Ty} {ts parts : List Ty}

theorem mem_joinParts {p : Ty} (h : p ∈ env.joinParts ts) :
    p ∈ Ty.alternativesEach ts ∧ p.isNever = false := by
  have hp := (pruned_sublist _ _).subset ((mem_sortedBy _).1 h)
  simpa using hp

theorem mem_meetParts {p : Ty} (h : p ∈ env.meetParts ts) : p ∈ meetFactors ts :=
  (pruned_sublist _ _).subset ((mem_sortedBy _).1 h)

theorem mem_meetFactors {p : Ty} : p ∈ meetFactors ts ↔ p ∈ Ty.factorsEach ts ∧ p.isAny = false := by
  simp [meetFactors]

theorem fits_joinParts (env : Env) (ts : List Ty) :
    (Ty.ofAlternatives (env.joinParts ts)).Fits (.union ts) :=
  Ty.fits_ofAlternatives fun _ hp ↦ (mem_joinParts hp).1

theorem fits_meetParts (env : Env) (ts : List Ty) :
    (Ty.ofFactors (env.meetParts ts)).Fits (.inter ts) := by
  refine Ty.fits_ofFactors ?_ fun p hp v hv ↦ ?_
  · calc Ty.weightSum (env.meetParts ts)
        = Ty.weightSum (pruned _ (meetFactors ts)) := Ty.weightSum_of_perm (sortedBy_perm _ _)
      _ ≤ Ty.weightSum (meetFactors ts) := Ty.weightSum_le_of_sublist (pruned_sublist _ _)
      _ ≤ Ty.weightSum (Ty.factorsEach ts) := Ty.weightSum_le_of_sublist List.filter_sublist
      _ ≤ Ty.weightSum ts := Ty.weightSum_factorsEach ts
  · obtain ⟨t, ht, hpt⟩ := Ty.mem_factorsEach.1 (mem_meetFactors.1 (mem_meetParts hp)).1
    exact Ty.mem_varsEach.2 ⟨t, ht, (Ty.factors_spec hpt).2 hv⟩

/-- An alternative of an intersection is lighter than the intersection. -/
theorem disjunct_lighter {ds : List Ty} (h : ds ∈ disjuncts parts)
    (hu : (Ty.unionsIn parts).isEmpty = false) :
    (Ty.inter ds).weight < (Ty.inter parts).weight ∧ (Ty.inter ds).vars ⊆ (Ty.inter parts).vars := by
  obtain ⟨choice, hc, rfl⟩ := List.mem_map.1 h
  constructor
  · have hw := Ty.weightSum_choice hc
    have hpos : 0 < (Ty.unionsIn parts).length := by
      cases hl : Ty.unionsIn parts with
      | nil => simp [hl] at hu
      | cons => exact Nat.succ_pos _
    simp only [Ty.weight]
    omega
  · intro v hv
    obtain ⟨p, hp, hvp⟩ := Ty.mem_varsEach.1 hv
    rcases Ty.mem_choice hc hp with hp | ⟨us, hus, hp⟩
    · exact Ty.mem_varsEach.2 ⟨p, hp, hvp⟩
    · exact Ty.mem_varsEach.2 ⟨.union us, hus, Ty.mem_varsEach.2 ⟨p, hp, hvp⟩⟩

theorem fits_disjuncts {g : List Ty → Ty} (hu : (Ty.unionsIn parts).isEmpty = false)
    (hg : ∀ ds ∈ disjuncts parts, (g ds).Fits (.inter ds)) :
    (Ty.union ((disjuncts parts).map g)).Fits (.inter parts) := by
  constructor
  · have hmax : Ty.weightMax ((disjuncts parts).map g) ≤ Ty.weightSum parts := by
      refine Ty.weightMax_le_iff.2 fun r hr ↦ ?_
      obtain ⟨ds, hds, rfl⟩ := List.mem_map.1 hr
      have := (hg ds hds).weight
      have := (disjunct_lighter hds hu).1
      simp only [Ty.weight] at *
      omega
    exact Nat.add_le_add_left hmax 1
  · intro v hv
    obtain ⟨r, hr, hvr⟩ := Ty.mem_varsEach.1 hv
    obtain ⟨ds, hds, rfl⟩ := List.mem_map.1 hr
    exact (disjunct_lighter hds hu).2 ((hg ds hds).vars hvr)

theorem Founded.fits (ht : env.Founded t) (h : s.Fits t) : env.Founded s :=
  ht.of_vars h.vars

theorem rank_le_of_fits (env : Env) (h : s.Fits t) : env.rank s ≤ env.rank t :=
  rank_le_of_vars h.weight h.vars

theorem rank_disjunct_lt (env : Env) {ds : List Ty} (h : ds ∈ disjuncts parts)
    (hu : (Ty.unionsIn parts).isEmpty = false) :
    env.rank (.inter ds) < env.rank (.inter parts) :=
  rank_lt_of_vars (disjunct_lighter h hu).1 (disjunct_lighter h hu).2

theorem alternative_spec {a : Ty} (ht : env.Founded (.union ts)) (h : a ∈ Ty.alternativesEach ts) :
    env.Founded a ∧ env.rank a < env.rank (.union ts) := by
  obtain ⟨t, hts, ha⟩ := Ty.mem_alternativesEach.1 h
  obtain ⟨-, hw, hv⟩ := Ty.alternatives_spec ha
  exact ⟨(ht.child hts).of_vars hv, (rank_le_of_vars hw hv).trans_lt (rank_lt_of_child env hts)⟩

theorem factor_spec {a : Ty} (ht : env.Founded (.inter ts)) (h : a ∈ Ty.factorsEach ts) :
    env.Founded a ∧ env.rank a < env.rank (.inter ts) := by
  obtain ⟨t, hts, ha⟩ := Ty.mem_factorsEach.1 h
  obtain ⟨-, hv⟩ := Ty.factors_spec ha
  have hw : a.weight ≤ t.weight := (Ty.weight_le_sum ha).trans t.weightSum_factors
  exact ⟨(ht.child hts).of_vars hv, (rank_le_of_vars hw hv).trans_lt (rank_lt_of_child env hts)⟩

def DecidedBelow (env : Env) (base bound : Nat) : Prop :=
  ∀ a b, env.Founded a → env.Founded b → env.rank a < bound → env.rank b < bound →
    ∀ d ≥ base, env.Decided d a b

/-- Types up to this rank are brought into canonical form from a depth on that grows with the rank. -/
structure Canonizes (env : Env) (base rank : Nat) : Prop where
  join : ∀ ts, env.Founded (.union ts) → env.rank (.union ts) ≤ rank →
    ∃ r : Ty, r.Fits (.union ts) ∧ ∀ d ≥ base + 2 * rank - 1, (env.joinTo d ts).outcome = .ok r
  distribute : ∀ t, env.Founded t → env.rank t ≤ rank →
    ∃ r : Ty, r.Fits t ∧ ∀ d ≥ base + 2 * rank, (env.distributeTo d t).outcome = .ok r
  meet : ∀ ts, env.Founded (.inter ts) → env.rank (.inter ts) ≤ rank →
    ∃ r : Ty, r.Fits (.inter ts) ∧ ∀ d ≥ base + 2 * rank + 1, (env.meetTo d ts).outcome = .ok r

section Canonizing

variable {base bound n : Nat}

theorem Canonizes.zero (env : Env) (base : Nat) : env.Canonizes base 0 where
  join _ _ h := absurd h (Nat.not_le.2 (rank_pos env _))
  distribute _ _ h := absurd h (Nat.not_le.2 (rank_pos env _))
  meet _ _ h := absurd h (Nat.not_le.2 (rank_pos env _))

theorem Canonizes.join_succ (hc : env.Canonizes base n) (hd : env.DecidedBelow base bound)
    (hn : n < bound) (hb : 0 < base) (ht : env.Founded (.union ts))
    (hr : env.rank (.union ts) ≤ n + 1) :
    ∃ r : Ty, r.Fits (.union ts) ∧
      ∀ d ≥ base + 2 * (n + 1) - 1, (env.joinTo d ts).outcome = .ok r := by
  have hfits := fits_joinParts env ts
  have hstep {d : Nat} (h : base ≤ d) := joinTo_succ (d := d) fun a ha b hb ↦
    have ha' := alternative_spec ht ha
    have hb' := alternative_spec ht hb
    hd a b ha'.1 hb'.1 (by omega) (by omega) d h
  cases hi : (Ty.ofAlternatives (env.joinParts ts)).isInter
  · refine ⟨_, hfits, fun d hge ↦ ?_⟩
    obtain ⟨d, rfl⟩ : ∃ k, d = k + 1 + 1 := ⟨d - 2, by omega⟩
    rw [hstep (by omega), distributeTo_of_not_inter hi]
  · -- The union has collapsed to one part, an intersection of smaller rank.
    have hrank : env.rank (Ty.ofAlternatives (env.joinParts ts)) ≤ n := by
      obtain ⟨p, hp, he⟩ := Ty.eq_singleton_of_isInter hi
      have hm : p ∈ env.joinParts ts := by rw [hp]; exact List.mem_cons_self
      have := (alternative_spec ht (mem_joinParts hm).1).2
      rw [he]
      omega
    obtain ⟨r, hf, hr⟩ := hc.distribute _ (ht.fits hfits) hrank
    refine ⟨r, hf.trans hfits, fun d hge ↦ ?_⟩
    obtain ⟨d, rfl⟩ : ∃ k, d = k + 1 := ⟨d - 1, by omega⟩
    rw [hstep (by omega), hr d (by omega)]

theorem Canonizes.distribute_succ (hc : env.Canonizes base n)
    (hj : ∀ ts, env.Founded (.union ts) → env.rank (.union ts) ≤ n + 1 →
      ∃ r : Ty, r.Fits (.union ts) ∧
        ∀ d ≥ base + 2 * (n + 1) - 1, (env.joinTo d ts).outcome = .ok r)
    (ht : env.Founded t) (hr : env.rank t ≤ n + 1) :
    ∃ r : Ty, r.Fits t ∧ ∀ d ≥ base + 2 * (n + 1), (env.distributeTo d t).outcome = .ok r := by
  have stays (h : ∀ d, (env.distributeTo (d + 1) t).outcome = .ok t) :
      ∃ r : Ty, r.Fits t ∧ ∀ d ≥ base + 2 * (n + 1), (env.distributeTo d t).outcome = .ok r := by
    refine ⟨t, .refl t, fun d hge ↦ ?_⟩
    obtain ⟨d, rfl⟩ : ∃ k, d = k + 1 := ⟨d - 1, by omega⟩
    exact h d
  cases hi : t.isInter
  · exact stays fun d ↦ distributeTo_of_not_inter hi
  cases t <;> cases hi
  next parts =>
  cases hk : env.keeps parts
  · have hu := (Bool.or_eq_false_iff.1 hk).1
    have hmeet : ∀ ds ∈ disjuncts parts, ∃ r : Ty, r.Fits (.inter ds) ∧
        ∀ d ≥ base + 2 * n + 1, (env.meetTo d ds).outcome = .ok r := by
      intro ds hds
      have := rank_disjunct_lt env hds hu
      exact hc.meet ds (ht.of_vars (disjunct_lighter hds hu).2) (by omega)
    let g (ds : List Ty) : Ty := answer (env.meetTo (base + 2 * n + 1) ds).outcome
    have hg : ∀ ds ∈ disjuncts parts, (g ds).Fits (.inter ds) ∧
        ∀ d ≥ base + 2 * n + 1, (env.meetTo d ds).outcome = .ok (g ds) := by
      intro ds hds
      obtain ⟨r, hf, hr⟩ := hmeet ds hds
      have he : g ds = r := by simp only [g, hr _ le_rfl]; rfl
      rw [he]
      exact ⟨hf, hr⟩
    have hfits := fits_disjuncts hu fun ds hds ↦ (hg ds hds).1
    obtain ⟨r, hf, hr⟩ := hj _ (ht.fits hfits) ((rank_le_of_fits env hfits).trans hr)
    refine ⟨r, hf.trans hfits, fun d hge ↦ ?_⟩
    obtain ⟨d, rfl⟩ : ∃ k, d = k + 1 := ⟨d - 1, by omega⟩
    rw [distributeTo_succ hk fun ds hds ↦ (hg ds hds).2 d (by omega), hr d (by omega)]
  · exact stays fun d ↦ distributeTo_keep hk

theorem Canonizes.succ (hc : env.Canonizes base n) (hd : env.DecidedBelow base bound)
    (hn : n < bound) (hb : 0 < base) : env.Canonizes base (n + 1) := by
  have hj (ts : List Ty) (ht : env.Founded (.union ts)) := hc.join_succ hd hn hb ht
  have hs (t : Ty) (ht : env.Founded t) := hc.distribute_succ hj ht
  refine ⟨hj, hs, fun ts ht hr ↦ ?_⟩
  have hfits := fits_meetParts env ts
  have hstep {d : Nat} (h : base ≤ d) := meetTo_succ (d := d) fun a ha b hb ↦
    have ha' := factor_spec ht ha
    have hb' := factor_spec ht hb
    hd a b ha'.1 hb'.1 (by omega) (by omega) d h
  obtain ⟨r, hf, hr⟩ := hs _ (ht.fits hfits) ((rank_le_of_fits env hfits).trans hr)
  by_cases hnever : (meetFactors ts).any Ty.isNever = true
  · refine ⟨.never, Ty.fits_atomic _ _, fun d hge ↦ ?_⟩
    obtain ⟨d, rfl⟩ : ∃ k, d = k + 1 := ⟨d - 1, by omega⟩
    rw [hstep (by omega), if_pos hnever]
  · refine ⟨r, hf.trans hfits, fun d hge ↦ ?_⟩
    obtain ⟨d, rfl⟩ : ∃ k, d = k + 1 := ⟨d - 1, by omega⟩
    rw [hstep (by omega), if_neg hnever, hr d (by omega)]

theorem canonizes (hd : env.DecidedBelow base bound) (hb : 0 < base) (hn : n ≤ bound) :
    env.Canonizes base n := by
  induction n with
  | zero => exact .zero env base
  | succ n ih => exact (ih (by omega)).succ hd (by omega) hb

end Canonizing

/--
The depth from which a subtype test of types of these ranks is answered. The larger rank comes first: canonical forms of
the sides ask about smaller ranks only, and a structural rule lowers one rank and keeps the other.
-/
def need (a b : Nat) : Nat :=
  3 * max a b ^ 2 + 2 * max a b + min a b + 3

theorem need_comm (a b : Nat) : need a b = need b a := by
  rw [need, need, max_comm, min_comm]

theorem need_lt {a b x y : Nat} (ha : a < x) (hb : b ≤ y) : need a b < need x y := by
  unfold need
  rcases le_total a b with h | h <;> rcases le_total x y with h' | h' <;>
    simp only [max_eq_left, max_eq_right, min_eq_left, min_eq_right, h, h'] <;> nlinarith

theorem need_lt_of_lt {a b n : Nat} (ha : a < n) (hb : b < n) : need a b ≤ 3 * n ^ 2 := by
  unfold need
  rcases le_total a b with h | h <;>
    simp only [max_eq_left, max_eq_right, min_eq_left, min_eq_right, h] <;> nlinarith

theorem need_le_depth (env : Env) (s t : Ty) :
    need (env.rank s) (env.rank t) ≤ env.depth [s, t] := by
  have hs := rank_le env s
  have ht := rank_le env t
  have hsize : Ty.sizeEach [s, t] = s.size + t.size := rfl
  refine (need_lt_of_lt (Nat.lt_succ_of_le (le_max_left _ _))
    (Nat.lt_succ_of_le (le_max_right _ _))).trans (le_depth env [s, t] ?_)
  omega

theorem leftForm_settled {base n : Nat} (hc : env.Canonizes base n) (ht : env.Founded t)
    (hr : env.rank t ≤ n) :
    ∃ r, env.Founded r ∧ env.rank r ≤ env.rank t ∧
      ∀ d ≥ base + 2 * n + 1, (env.leftForm (env.meetTo d) t).outcome = .ok r := by
  cases t with
  | inter parts =>
    obtain ⟨r, hf, hm⟩ := hc.meet parts ht hr
    have hr' := ht.fits hf
    obtain ⟨hd, -, -, hle⟩ := resolved_spec hr'
    refine ⟨env.resolved r, hr'.resolved, hle.trans (rank_le_of_fits env hf), fun d hge ↦ ?_⟩
    rw [leftForm, Run.outcome_bind, hm d hge]
    exact hd
  | _ => exact ⟨_, ht, le_rfl, fun d hge ↦ rfl⟩

theorem rightForm_settled {base n : Nat} (hc : env.Canonizes base n) (ht : env.Founded t)
    (hr : env.rank t ≤ n) :
    ∃ r, env.Founded r ∧ env.rank r ≤ env.rank t ∧
      ∀ d ≥ base + 2 * n + 1, (env.rightForm (env.joinTo d) t).outcome = .ok r := by
  cases t with
  | union parts =>
    obtain ⟨r, hf, hm⟩ := hc.join parts ht hr
    have hr' := ht.fits hf
    obtain ⟨hd, -, -, hle⟩ := resolved_spec hr'
    refine ⟨env.resolved r, hr'.resolved, hle.trans (rank_le_of_fits env hf), fun d hge ↦ ?_⟩
    rw [rightForm, Run.outcome_bind, hm d (by omega)]
    exact hd
  | _ => exact ⟨_, ht, le_rfl, fun d hge ↦ rfl⟩

theorem subtypeTo_succ {d : Nat} {s' t' : Ty} {e : Bool} (hs : env.Founded s) (ht : env.Founded t)
    (hl : (env.leftForm (env.meetTo d) (env.resolved s)).outcome = .ok s')
    (hr : (env.rightForm (env.joinTo d) (env.resolved t)).outcome = .ok t')
    (he : env.equalTo d s' t' = .ok e) :
    (env.subtypeTo (d + 1) s t).outcome =
      if e || t'.isAny || s'.isNever then .ok true
      else (Ty.subtypeBy (env.subtypeTo d) s' t').outcome := by
  rw [subtypeTo, Run.outcome_bind, Run.outcome_lift, (resolved_spec hs).1]
  change Run.outcome (_ >>= _) = _
  rw [Run.outcome_bind, Run.outcome_lift, (resolved_spec ht).1]
  change Run.outcome (_ >>= _) = _
  rw [Run.outcome_bind, hl]
  change Run.outcome (_ >>= _) = _
  rw [Run.outcome_bind, hr]
  change Run.outcome (_ >>= _) = _
  rw [Run.outcome_bind, Run.outcome_lift, he]
  change Run.outcome (ite _ _ _) = _
  cases e
  · cases hb : t'.isAny || s'.isNever <;> simp [hb, Run.outcome_pure]
  · rfl

/-- One layer of the subtype relation over components whose tests are known. -/
theorem subtypeBy_settled {f : Ty → Ty → Run Bool} {q : Ty → Ty → Bool}
    (hl : ∀ a ∈ s.children, (f a t).outcome = .ok (q a t))
    (hr : ∀ b ∈ t.children, (f s b).outcome = .ok (q s b))
    (hb : ∀ a ∈ s.children, ∀ b ∈ t.children,
      (f a b).outcome = .ok (q a b) ∧ (f b a).outcome = .ok (q b a)) :
    (Ty.subtypeBy f s t).outcome = .ok (Ty.subtypeBy (m := Id) q s t) := by
  have hq {a b : Ty} (h : (f a b).outcome = .ok (q a b)) : Run.settled.rel Eq (f a b) (q a b) := ⟨_, h, rfl⟩
  have h := Run.settled.rel_subtypeBy_same (p := f) (q := q) (fun a ha ↦ hq (hl a ha)) (fun b hb ↦ hq (hr b hb))
    fun a ha b hb' ↦ ⟨hq (hb a ha b hb').1, hq (hb a ha b hb').2⟩
  obtain ⟨r, hr, rfl⟩ := h
  exact hr

theorem decided_of_settled (hs : env.Founded s) (ht : env.Founded t) {d : Nat}
    (h : ∃ b, ∀ d ≥ need (env.rank s) (env.rank t), (env.subtypeTo d s t).outcome = .ok b)
    (hd : need (env.rank s) (env.rank t) ≤ d) (hr : env.rank s < d) : env.Decided d s t where
  subtype := settled_at (f := fun d ↦ (env.subtypeTo d s t).outcome) h (need_le_depth env s t) d hd
  equal := equalTo_eq_same hs ht hr
  key := sortKeyTo_eq_key hs hr

theorem subtypeTo_settled (hs : env.Founded s) (ht : env.Founded t) :
    ∃ b, ∀ d ≥ need (env.rank s) (env.rank t), (env.subtypeTo d s t).outcome = .ok b := by
  induction hn : need (env.rank s) (env.rank t) using Nat.strongRecOn generalizing s t with
  | ind n ih =>
    subst hn
    have known {a b : Ty} (ha : env.Founded a) (hb : env.Founded b)
        (hlt : need (env.rank a) (env.rank b) < need (env.rank s) (env.rank t)) {d : Nat}
        (hd : need (env.rank a) (env.rank b) ≤ d) :
        (env.subtypeTo d a b).outcome = .ok (env.below a b) :=
      settled_at (f := fun d ↦ (env.subtypeTo d a b).outcome) (ih _ hlt ha hb rfl)
        (need_le_depth env a b) d hd
    let p := max (env.rank s) (env.rank t)
    have hp : 0 < p := (rank_pos env s).trans_le (le_max_left _ _)
    have hbase : 3 * p ^ 2 + 2 * p + 2 < need (env.rank s) (env.rank t) := by
      change _ < 3 * p ^ 2 + 2 * p + min _ _ + 3
      omega
    have hsq : p ≤ 3 * p ^ 2 := by nlinarith
    have hdec : env.DecidedBelow (3 * p ^ 2) p := by
      intro a b ha hb hap hbp d hd
      have hneed := need_lt_of_lt hap hbp
      exact decided_of_settled ha hb (ih _ (by omega) ha hb rfl) (by omega) (by omega)
    have hc := canonizes hdec (by omega) le_rfl
    have hrs := (resolved_spec hs).2.2.2
    have hrt := (resolved_spec ht).2.2.2
    obtain ⟨s', hs', hs'r, hl⟩ := leftForm_settled hc hs.resolved (hrs.trans (le_max_left _ _))
    obtain ⟨t', ht', ht'r, hr⟩ := rightForm_settled hc ht.resolved (hrt.trans (le_max_right _ _))
    refine ⟨if env.same s' t' || t'.isAny || s'.isNever then true
      else Ty.subtypeBy (m := Id) env.below s' t', fun d hd ↦ ?_⟩
    obtain ⟨d, rfl⟩ : ∃ k, d = k + 1 := ⟨d - 1, by omega⟩
    have hsp : env.rank s' ≤ p := (hs'r.trans hrs).trans (le_max_left _ _)
    rw [subtypeTo_succ hs ht (hl d (by omega)) (hr d (by omega))
      (equalTo_eq_same hs' ht' (by omega))]
    split
    · rfl
    · have hle := hs'r.trans hrs
      have hle' := ht'r.trans hrt
      have smaller {a b : Ty} (ha : env.Founded a) (hb : env.Founded b)
          (hlt : need (env.rank a) (env.rank b) < need (env.rank s) (env.rank t)) :
          (env.subtypeTo d a b).outcome = .ok (env.below a b) :=
        known ha hb hlt (by omega)
      refine subtypeBy_settled (fun a ha ↦ ?_) (fun b hb ↦ ?_) fun a ha b hb ↦ ⟨?_, ?_⟩
      · have := rank_lt_of_child env ha
        exact smaller (hs'.child ha) ht' (need_lt (by omega) (by omega))
      · have := rank_lt_of_child env hb
        rw [need_comm (env.rank s)] at smaller
        exact smaller hs' (ht'.child hb) (need_comm _ _ ▸ need_lt (by omega) (by omega))
      · have := rank_lt_of_child env ha
        have := rank_lt_of_child env hb
        exact smaller (hs'.child ha) (ht'.child hb) (need_lt (by omega) (by omega))
      · have := rank_lt_of_child env ha
        have := rank_lt_of_child env hb
        exact smaller (ht'.child hb) (hs'.child ha) (need_comm _ _ ▸ need_lt (by omega) (by omega))

end Env

end TypeAlgebra
