import TypeAlgebra.Proofs.Termination

namespace TypeAlgebra

namespace Env

variable {env : Env} {s t : Ty} {ts parts : List Ty}

theorem decided (hs : env.Founded s) (ht : env.Founded t) {d : Nat}
    (hd : need (env.rank s) (env.rank t) ≤ d) : env.Decided d s t := by
  refine decided_of_settled hs ht (subtypeTo_settled hs ht) hd ?_
  have : env.rank s < need (env.rank s) (env.rank t) := by
    unfold need
    omega
  omega

theorem subtype_eq (hs : env.Founded s) (ht : env.Founded t) :
    (env.subtype s t).outcome = .ok (env.below s t) :=
  (decided hs ht (need_le_depth env s t)).subtype

theorem orderBy_eq (hs : env.Founded s) (ht : env.Founded t) (general : Ordering) :
    (env.orderBy (env.depth [s, t]) env.subtype general s t).outcome =
      .ok (env.ordering general s t) := by
  have hds : env.rank s < env.depth [s, t] := rank_lt_depth List.mem_cons_self
  have hdt : env.rank t < env.depth [s, t] := rank_lt_depth (by simp)
  exact orderBy_settled (subtype_eq hs ht) (subtype_eq ht hs) (equalTo_eq_same hs ht hds)
    (sortKeyTo_eq_key hs hds) (sortKeyTo_eq_key ht hdt)

/-- A depth that is enough to bring types of a rank into canonical form. -/
def ample (rank : Nat) : Nat :=
  3 * (rank + 1) ^ 2

theorem canonizes_rank (env : Env) {n : Nat} (hn : 0 < n) : env.Canonizes (3 * n ^ 2) n := by
  have hsq : n ≤ 3 * n ^ 2 := by nlinarith
  refine canonizes (fun a b ha hb hra hrb d hd ↦ ?_) (by omega) le_rfl
  exact decided ha hb ((need_lt_of_lt hra hrb).trans hd)

theorem ample_ge (n : Nat) : 3 * n ^ 2 + 2 * n + 1 ≤ ample n := by
  unfold ample
  nlinarith

theorem ample_mono {m n : Nat} (h : m ≤ n) : ample m ≤ ample n :=
  Nat.mul_le_mul_left 3 (Nat.pow_le_pow_left (Nat.succ_le_succ h) 2)

theorem ample_union_le_depth (env : Env) (ts : List Ty) : ample (env.rank (.union ts)) ≤ env.depth ts := by
  have := rank_le env (.union ts)
  simp only [Ty.size] at this
  exact le_depth env ts (by omega)

theorem ample_inter_le_depth (env : Env) (ts : List Ty) : ample (env.rank (.inter ts)) ≤ env.depth ts := by
  have := rank_le env (.inter ts)
  simp only [Ty.size] at this
  exact le_depth env ts (by omega)

theorem ample_le_depth (env : Env) (t : Ty) : ample (env.rank t) ≤ env.depth [t] := by
  have := rank_le env t
  exact le_depth env [t] (by simp only [Ty.sizeEach]; omega)

/-- A result that is the same from some depth on, below the depth the algebra starts from. -/
theorem ample_settled {f : Nat → Run Ty} {u : Ty} {n bound depth : Nat}
    (h : ∃ r : Ty, r.Fits u ∧ ∀ d ≥ bound, (f d).outcome = .ok r) (hb : bound ≤ ample n)
    (hd : ample n ≤ depth) :
    (answer (f depth).outcome).Fits u ∧ ∀ d ≥ ample n, (f d).outcome = .ok (answer (f depth).outcome) := by
  obtain ⟨r, hf, hr⟩ := h
  have he : answer (f depth).outcome = r := by
    rw [hr depth (hb.trans hd)]
    rfl
  rw [he]
  exact ⟨hf, fun d hge ↦ hr d (hb.trans hge)⟩

theorem joinTo_ample (ht : env.Founded (.union ts)) :
    (env.joined ts).Fits (.union ts) ∧
      ∀ d ≥ ample (env.rank (.union ts)), (env.joinTo d ts).outcome = .ok (env.joined ts) := by
  have hn := ample_ge (env.rank (.union ts))
  exact ample_settled ((canonizes_rank env (rank_pos env _)).join ts ht le_rfl) (by omega)
    (ample_union_le_depth env ts)

theorem meetTo_ample (ht : env.Founded (.inter ts)) :
    (env.met ts).Fits (.inter ts) ∧
      ∀ d ≥ ample (env.rank (.inter ts)), (env.meetTo d ts).outcome = .ok (env.met ts) := by
  have hn := ample_ge (env.rank (.inter ts))
  exact ample_settled ((canonizes_rank env (rank_pos env _)).meet ts ht le_rfl) (by omega)
    (ample_inter_le_depth env ts)

theorem distributeTo_ample (ht : env.Founded t) :
    (env.spread t).Fits t ∧
      ∀ d ≥ ample (env.rank t), (env.distributeTo d t).outcome = .ok (env.spread t) := by
  have hn := ample_ge (env.rank t)
  exact ample_settled ((canonizes_rank env (rank_pos env _)).distribute t ht le_rfl) (by omega)
    (ample_le_depth env t)

theorem join_eq (ht : env.Founded (.union ts)) : (env.join ts).outcome = .ok (env.joined ts) :=
  (joinTo_ample ht).2 _ (ample_union_le_depth env ts)

theorem meet_eq (ht : env.Founded (.inter ts)) : (env.meet ts).outcome = .ok (env.met ts) :=
  (meetTo_ample ht).2 _ (ample_inter_le_depth env ts)

theorem Founded.joined (ht : env.Founded (.union ts)) : env.Founded (env.joined ts) :=
  ht.fits (joinTo_ample ht).1

theorem Founded.met (ht : env.Founded (.inter ts)) : env.Founded (env.met ts) :=
  ht.fits (meetTo_ample ht).1

theorem joined_eq (ht : env.Founded (.union ts)) :
    env.joined ts = env.spread (.ofAlternatives (env.joinParts ts)) := by
  have hf := fits_joinParts env ts
  have hm := ample_mono (rank_le_of_fits env hf)
  have h := (joinTo_ample ht).2 (ample (env.rank (.union ts)) + 1) (Nat.le_succ _)
  rw [joinTo_succ, (distributeTo_ample (ht.fits hf)).2 _ hm] at h
  · exact (Except.ok.inj h).symm
  · intro a ha b hb
    obtain ⟨ha, hra⟩ := alternative_spec ht ha
    obtain ⟨hb, hrb⟩ := alternative_spec ht hb
    exact decided ha hb (need_lt_of_lt (Nat.lt_succ_of_lt hra) (Nat.lt_succ_of_lt hrb))

theorem met_eq (ht : env.Founded (.inter ts)) :
    env.met ts =
      if (meetFactors ts).any Ty.isNever then .never
      else env.spread (.ofFactors (env.meetParts ts)) := by
  have hf := fits_meetParts env ts
  have hm := ample_mono (rank_le_of_fits env hf)
  have h := (meetTo_ample ht).2 (ample (env.rank (.inter ts)) + 1) (Nat.le_succ _)
  rw [meetTo_succ, (distributeTo_ample (ht.fits hf)).2 _ hm] at h
  · split at h
    · next hn => rw [if_pos hn, Except.ok.inj h]
    · next hn => rw [if_neg hn, Except.ok.inj h]
  · intro a ha b hb
    obtain ⟨ha, hra⟩ := factor_spec ht ha
    obtain ⟨hb, hrb⟩ := factor_spec ht hb
    exact decided ha hb (need_lt_of_lt (Nat.lt_succ_of_lt hra) (Nat.lt_succ_of_lt hrb))

theorem spread_of_not_inter (env : Env) (h : t.isInter = false) : env.spread t = t := by
  have hd : 0 < env.depth [t] := Nat.pow_pos (Nat.succ_pos _)
  obtain ⟨d, he⟩ := Nat.exists_eq_add_of_lt hd
  rw [spread, he, Nat.zero_add, distributeTo_of_not_inter h]
  rfl

theorem spread_keep (h : env.keeps parts = true) : env.spread (.inter parts) = .inter parts := by
  have hd : 0 < env.depth [.inter parts] := Nat.pow_pos (Nat.succ_pos _)
  obtain ⟨d, he⟩ := Nat.exists_eq_add_of_lt hd
  rw [spread, he, Nat.zero_add, distributeTo_keep h]
  rfl

theorem spread_distribute (ht : env.Founded (.inter parts)) (h : env.keeps parts = false) :
    env.spread (.inter parts) = env.joined ((disjuncts parts).map env.met) := by
  have hu := (Bool.or_eq_false_iff.1 h).1
  have hfounded {ds : List Ty} (hds : ds ∈ disjuncts parts) : env.Founded (.inter ds) :=
    ht.of_vars (disjunct_lighter hds hu).2
  have hf := fits_disjuncts hu fun ds hds ↦ (meetTo_ample (hfounded hds)).1
  have he := (distributeTo_ample ht).2 (ample (env.rank (.inter parts)) + 1) (Nat.le_succ _)
  rw [distributeTo_succ h fun ds hds ↦ (meetTo_ample (hfounded hds)).2 _
    (ample_mono (rank_disjunct_lt env hds hu).le),
    (joinTo_ample (ht.fits hf)).2 _ (ample_mono (rank_le_of_fits env hf))] at he
  exact (Except.ok.inj he).symm

def leftOf (env : Env) (s : Ty) : Ty :=
  match env.resolved s with
  | .inter parts => env.resolved (env.met parts)
  | s => s

def rightOf (env : Env) (t : Ty) : Ty :=
  match env.resolved t with
  | .union parts => env.resolved (env.joined parts)
  | t => t

theorem leftOf_spec (hs : env.Founded s) :
    env.Founded (env.leftOf s) ∧ env.rank (env.leftOf s) ≤ env.rank s ∧
      ∀ d ≥ ample (env.rank s),
        (env.leftForm (env.meetTo d) (env.resolved s)).outcome = .ok (env.leftOf s) := by
  have hr := hs.resolved
  have hle := (resolved_spec hs).2.2.2
  unfold leftOf
  generalize env.resolved s = u at hr hle
  cases u with
  | inter parts =>
    obtain ⟨hd, -, -, hm⟩ := resolved_spec hr.met
    refine ⟨hr.met.resolved, (hm.trans (rank_le_of_fits env (meetTo_ample hr).1)).trans hle,
      fun d hge ↦ ?_⟩
    rw [leftForm, Run.outcome_bind, (meetTo_ample hr).2 d ((ample_mono hle).trans hge)]
    exact hd
  | _ => exact ⟨hr, hle, fun d hge ↦ rfl⟩

theorem rightOf_spec (ht : env.Founded t) :
    env.Founded (env.rightOf t) ∧ env.rank (env.rightOf t) ≤ env.rank t ∧
      ∀ d ≥ ample (env.rank t),
        (env.rightForm (env.joinTo d) (env.resolved t)).outcome = .ok (env.rightOf t) := by
  have hr := ht.resolved
  have hle := (resolved_spec ht).2.2.2
  unfold rightOf
  generalize env.resolved t = u at hr hle
  cases u with
  | union parts =>
    obtain ⟨hd, -, -, hm⟩ := resolved_spec hr.joined
    refine ⟨hr.joined.resolved, (hm.trans (rank_le_of_fits env (joinTo_ample hr).1)).trans hle,
      fun d hge ↦ ?_⟩
    rw [rightForm, Run.outcome_bind, (joinTo_ample hr).2 d ((ample_mono hle).trans hge)]
    exact hd
  | _ => exact ⟨hr, hle, fun d hge ↦ rfl⟩

theorem below_eq (hs : env.Founded s) (ht : env.Founded t) :
    env.below s t = (env.same (env.leftOf s) (env.rightOf t) || (env.rightOf t).isAny ||
      (env.leftOf s).isNever || Ty.subtypeBy (m := Id) env.below (env.leftOf s) (env.rightOf t)) := by
  obtain ⟨hl, hlr, hleft⟩ := leftOf_spec hs
  obtain ⟨hr, hrr, hright⟩ := rightOf_spec ht
  let n := max (env.rank s) (env.rank t)
  have hn : n < ample n := by
    unfold ample
    nlinarith
  have hsn : env.rank s ≤ n := le_max_left _ _
  have htn : env.rank t ≤ n := le_max_right _ _
  have known {a b : Ty} (ha : env.Founded a) (hb : env.Founded b) (hra : env.rank a ≤ n)
      (hrb : env.rank b ≤ n) : (env.subtypeTo (ample n) a b).outcome = .ok (env.below a b) :=
    (decided ha hb (need_lt_of_lt (Nat.lt_succ_of_le hra) (Nat.lt_succ_of_le hrb))).subtype
  have h := (decided hs ht (d := ample n + 1) ((need_lt_of_lt (Nat.lt_succ_of_le hsn)
    (Nat.lt_succ_of_le htn)).trans (Nat.le_succ _))).subtype
  rw [subtypeTo_succ hs ht (hleft _ (ample_mono hsn)) (hright _ (ample_mono htn))
    (equalTo_eq_same hl hr (by omega)), subtypeBy_settled (q := env.below)] at h
  · split at h
    · next hb => rw [← Except.ok.inj h, hb, Bool.true_or]
    · next hb => rw [← Except.ok.inj h, Bool.eq_false_of_not_eq_true hb, Bool.false_or]
  · intro a ha
    have := rank_lt_of_child env ha
    exact known (hl.child ha) hr (by omega) (by omega)
  · intro b hb
    have := rank_lt_of_child env hb
    exact known hl (hr.child hb) (by omega) (by omega)
  · intro a ha b hb
    have := rank_lt_of_child env ha
    have := rank_lt_of_child env hb
    exact ⟨known (hl.child ha) (hr.child hb) (by omega) (by omega),
      known (hr.child hb) (hl.child ha) (by omega) (by omega)⟩

end Env

end TypeAlgebra
