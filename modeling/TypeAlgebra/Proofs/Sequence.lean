import TypeAlgebra.Proofs.Coupling
import Mathlib.Data.List.Pairwise

namespace TypeAlgebra

variable {α : Type}

def Apart (redundant : α → α → Bool) (a b : α) : Prop :=
  redundant a b = false ∧ redundant b a = false

instance (redundant : α → α → Bool) : Std.Symm (Apart redundant) where
  symm _ _ h := ⟨h.2, h.1⟩

/-- A test of all pairs without effects. -/
theorem allPairs_iff {β : Type} {test : α → β → Bool} {as : List α} {bs : List β} :
    allPairs (m := Id) test as bs = true ↔ List.Forall₂ (fun a b ↦ test a b = true) as bs := by
  have hall : (as.zip bs).allM (m := Id) (fun p ↦ test p.1 p.2) = (as.zip bs).all fun p ↦ test p.1 p.2 :=
    List.allM_pure
  have hpairs : allPairs (m := Id) test as bs =
      if as.length = bs.length then (as.zip bs).all fun p ↦ test p.1 p.2 else false := by
    rw [← hall]
    rfl
  rw [hpairs]
  constructor
  · intro h
    split at h
    · next hl => exact List.forall₂_iff_zip.2 ⟨hl, fun hm ↦ List.all_eq_true.1 h _ hm⟩
    · cases h
  · intro h
    rw [if_pos h.length_eq, List.all_eq_true]
    exact fun p hp ↦ (List.forall₂_iff_zip.1 h).2 hp

section Pruning

variable (redundant : α → α → Bool)

def prunedFrom (kept as : List α) : List α :=
  pruneFrom (m := Id) redundant kept as

def pruned (as : List α) : List α :=
  prune (m := Id) redundant as

theorem prunedFrom_cons (kept : List α) (a : α) (later : List α) :
    prunedFrom redundant kept (a :: later) =
      if later.any (redundant a) || kept.any (redundant a) then prunedFrom redundant kept later
      else prunedFrom redundant (kept ++ [a]) later := by
  have hany (as : List α) : as.anyM (m := Id) (redundant a) = as.any (redundant a) :=
    List.anyM_pure
  unfold prunedFrom
  rw [pruneFrom, hany, hany]
  cases later.any (redundant a) <;> cases kept.any (redundant a) <;> rfl

theorem prunedFrom_eq_append (kept as : List α) :
    ∃ more, prunedFrom redundant kept as = kept ++ more ∧ more.Sublist as := by
  induction as generalizing kept with
  | nil => exact ⟨[], (List.append_nil kept).symm, .slnil⟩
  | cons a later ih =>
    rw [prunedFrom_cons]
    split
    · obtain ⟨more, he, hs⟩ := ih kept
      exact ⟨more, he, hs.cons a⟩
    · obtain ⟨more, he, hs⟩ := ih (kept ++ [a])
      exact ⟨a :: more, by simpa using he, hs.cons_cons a⟩

theorem pruned_sublist (as : List α) : (pruned redundant as).Sublist as := by
  obtain ⟨more, he, hs⟩ := prunedFrom_eq_append redundant [] as
  unfold pruned prune
  change (prunedFrom redundant [] as).Sublist as
  rw [he]
  exact hs

theorem prunedFrom_apart {kept as : List α} (hk : kept.Pairwise (Apart redundant))
    (hl : ∀ k ∈ kept, ∀ a ∈ as, redundant k a = false) :
    (prunedFrom redundant kept as).Pairwise (Apart redundant) := by
  induction as generalizing kept with
  | nil => exact hk
  | cons a later ih =>
    have hlater : ∀ k ∈ kept, ∀ b ∈ later, redundant k b = false :=
      fun k h b hb ↦ hl k h b (List.mem_cons_of_mem a hb)
    rw [prunedFrom_cons]
    split
    · exact ih hk hlater
    · next hn =>
      simp only [Bool.or_eq_true, List.any_eq_true, not_or, not_exists, not_and,
        Bool.not_eq_true] at hn
      refine ih ?_ ?_
      · refine List.pairwise_append.2 ⟨hk, List.pairwise_singleton _ a, ?_⟩
        intro k h b hb
        obtain rfl := List.mem_singleton.1 hb
        exact ⟨hl k h b List.mem_cons_self, hn.2 k h⟩
      · intro k h b hb
        rcases List.mem_append.1 h with h | h
        · exact hlater k h b hb
        · obtain rfl := List.mem_singleton.1 h
          exact hn.1 b hb

theorem pruned_apart (as : List α) :
    (pruned redundant as).Pairwise (Apart redundant) :=
  prunedFrom_apart redundant .nil fun _ h ↦ nomatch h

theorem prunedFrom_of_apart {kept as : List α} (h : (kept ++ as).Pairwise (Apart redundant)) :
    prunedFrom redundant kept as = kept ++ as := by
  induction as generalizing kept with
  | nil => exact (List.append_nil kept).symm
  | cons a later ih =>
    have hk := (List.pairwise_append.1 h).2.2
    have ha := (List.pairwise_cons.1 (List.pairwise_append.1 h).2.1).1
    rw [prunedFrom_cons, if_neg, ih (by simpa using h), List.append_assoc]
    · rfl
    · simp only [Bool.or_eq_true, List.any_eq_true, not_or, not_exists, not_and, Bool.not_eq_true]
      exact ⟨fun b hb ↦ (ha b hb).1, fun k hk' ↦ (hk k hk' a List.mem_cons_self).2⟩

theorem pruned_of_apart {as : List α} (h : as.Pairwise (Apart redundant)) :
    pruned redundant as = as :=
  prunedFrom_of_apart redundant h

theorem mem_prunedFrom_of_kept {kept : List α} (as : List α) {k : α} (h : k ∈ kept) :
    k ∈ prunedFrom redundant kept as := by
  obtain ⟨more, he, -⟩ := prunedFrom_eq_append redundant kept as
  rw [he]
  exact List.mem_append_left more h

theorem mem_or_mem_of_prunedFrom {kept as : List α} {k : α} (h : k ∈ prunedFrom redundant kept as) :
    k ∈ kept ∨ k ∈ as := by
  obtain ⟨more, he, hs⟩ := prunedFrom_eq_append redundant kept as
  rw [he] at h
  exact (List.mem_append.1 h).imp_right fun hm ↦ hs.subset hm

def TransitiveOn (as : List α) : Prop :=
  ∀ a ∈ as, ∀ b ∈ as, ∀ c ∈ as, redundant a b = true → redundant b c = true → redundant a c = true

/-- A dropped element is redundant with a later one, which may be dropped in turn: the chain ends at an
element that is kept. -/
theorem prunedFrom_cover {all kept rest : List α} (ht : TransitiveOn redundant all) (hk : ∀ k ∈ kept, k ∈ all)
    (hr : ∀ a ∈ rest, a ∈ all) :
    ∀ a ∈ rest, a ∈ prunedFrom redundant kept rest ∨
      ∃ k ∈ prunedFrom redundant kept rest, redundant a k = true := by
  induction rest generalizing kept with
  | nil => simp
  | cons b later ih =>
    have hb := hr b List.mem_cons_self
    have hlater : ∀ a ∈ later, a ∈ all := fun a h ↦ hr a (List.mem_cons_of_mem b h)
    intro a ha
    rw [prunedFrom_cons]
    split
    · next hn =>
      rcases List.mem_cons.1 ha with rfl | ha
      · right
        rcases Bool.or_eq_true_iff.1 hn with hn | hn
        · obtain ⟨c, hc, hac⟩ := List.any_eq_true.1 hn
          rcases ih hk hlater c hc with hkept | ⟨k, hkm, hck⟩
          · exact ⟨c, hkept, hac⟩
          · have hkall : k ∈ all := (mem_or_mem_of_prunedFrom redundant hkm).elim (hk k) (hlater k)
            exact ⟨k, hkm, ht a hb c (hlater c hc) k hkall hac hck⟩
        · obtain ⟨k, hkm, hak⟩ := List.any_eq_true.1 hn
          exact ⟨k, mem_prunedFrom_of_kept redundant later hkm, hak⟩
      · exact ih hk hlater a ha
    · have hk' : ∀ k ∈ kept ++ [b], k ∈ all :=
        List.forall_mem_append.2 ⟨hk, List.forall_mem_singleton.2 hb⟩
      rcases List.mem_cons.1 ha with rfl | ha
      · left
        apply mem_prunedFrom_of_kept
        simp
      · exact ih hk' hlater a ha

theorem pruned_cover_or_mem {as : List α} (ht : TransitiveOn redundant as) :
    ∀ a ∈ as, a ∈ pruned redundant as ∨ ∃ k ∈ pruned redundant as, redundant a k = true :=
  prunedFrom_cover redundant ht (List.forall_mem_nil _) fun _ ↦ id

/-- If each element is redundant with itself, each one is covered by a kept one. -/
theorem pruned_cover (as : List α) (hr : ∀ a ∈ as, redundant a a = true)
    (ht : ∀ a ∈ as, ∀ b ∈ as, ∀ c ∈ as,
      redundant a b = true → redundant b c = true → redundant a c = true) :
    ∀ a ∈ as, ∃ k ∈ pruned redundant as, redundant a k = true := by
  intro a ha
  rcases pruned_cover_or_mem redundant ht a ha with hk | hk
  · exact ⟨a, hk, hr a ha⟩
  · exact hk

end Pruning

theorem runsOf_flatten (size : Nat) (as : List α) : (runsOf size as).flatten = as := by
  induction as using runsOf.induct size with
  | case1 => rw [runsOf, List.flatten_nil]
  | case2 a rest ih =>
    rw [runsOf, List.flatten_cons, ih, List.cons_append, List.take_append_drop]

section Sorting

variable (cmp : α → α → Ordering)

def inserted (a : α) (as : List α) : List α :=
  insertBackward (m := Id) cmp a as

def merged (as bs : List α) : List α :=
  mergeRuns (m := Id) cmp as bs

def sortedBy (as : List α) : List α :=
  stableSort (m := Id) cmp as

theorem inserted_cons (a b : α) (as : List α) :
    inserted cmp a (b :: as) = if cmp a b = .lt then b :: inserted cmp a as else a :: b :: as := by
  unfold inserted
  rw [insertBackward]
  change (if cmp a b = .lt then _ else _) = _
  split <;> rfl

theorem merged_nil_left (bs : List α) : merged cmp [] bs = bs := by
  unfold merged
  rw [mergeRuns]
  rfl

theorem merged_nil_right (as : List α) : merged cmp as [] = as := by
  unfold merged
  cases as with
  | nil => rw [mergeRuns]; rfl
  | cons a as =>
    rw [mergeRuns]
    · rfl
    · simp

theorem merged_cons (a b : α) (as bs : List α) :
    merged cmp (a :: as) (b :: bs) =
      if cmp b a = .lt then b :: merged cmp (a :: as) bs else a :: merged cmp as (b :: bs) := by
  unfold merged
  rw [mergeRuns]
  change (if cmp b a = .lt then _ else _) = _
  split <;> rfl

def sortedRun (as : List α) : List α :=
  insertionSort (m := Id) cmp as

theorem sortedRun_eq (as : List α) :
    sortedRun cmp as = (as.foldl (fun run a ↦ inserted cmp a run) []).reverse :=
  congrArg List.reverse (List.idRun_foldlM (f := fun run a ↦ insertBackward cmp a run))

theorem sortedBy_eq (as : List α) :
    sortedBy cmp as = ((runsOf 19 as).map (sortedRun cmp)).foldl (merged cmp) [] := by
  have hmap : (runsOf 19 as).mapM (m := Id) (insertionSort cmp) = (runsOf 19 as).map (sortedRun cmp) :=
    List.idRun_mapM
  have hfold (runs : List (List α)) :
      runs.foldlM (m := Id) (mergeRuns cmp) [] = runs.foldl (merged cmp) [] :=
    List.idRun_foldlM
  rw [← hfold, ← hmap]
  rfl

theorem inserted_perm (a : α) (as : List α) : (inserted cmp a as).Perm (a :: as) := by
  induction as with
  | nil => exact .refl _
  | cons b as ih =>
    rw [inserted_cons]
    split
    · exact (ih.cons b).trans (.swap a b as)
    · exact .refl _

theorem merged_perm (as bs : List α) : (merged cmp as bs).Perm (as ++ bs) := by
  induction as generalizing bs with
  | nil => rw [merged_nil_left]; exact .refl _
  | cons a as ih =>
    induction bs with
    | nil => rw [merged_nil_right, List.append_nil]
    | cons b bs ih' =>
      rw [merged_cons]
      split
      · exact (ih'.cons b).trans List.perm_middle.symm
      · exact (ih (b :: bs)).cons a

theorem sortedRun_perm (as : List α) : (sortedRun cmp as).Perm as := by
  have fold (run : List α) :
      (as.foldl (fun run a ↦ inserted cmp a run) run).Perm (run ++ as) := by
    induction as generalizing run with
    | nil => rw [List.append_nil]; exact .refl _
    | cons a as ih =>
      rw [List.foldl_cons]
      exact (ih _).trans (((inserted_perm cmp a run).append_right as).trans List.perm_middle.symm)
  rw [sortedRun_eq]
  exact (List.reverse_perm _).trans (fold [])

theorem sortedBy_perm (as : List α) : (sortedBy cmp as).Perm as := by
  have fold (runs : List (List α)) (front : List α) :
      ((runs.map (sortedRun cmp)).foldl (merged cmp) front).Perm (front ++ runs.flatten) := by
    induction runs generalizing front with
    | nil => simp
    | cons run runs ih =>
      rw [List.map_cons, List.foldl_cons, List.flatten_cons, ← List.append_assoc]
      refine (ih _).trans (.append_right _ ?_)
      exact (merged_perm cmp front _).trans ((sortedRun_perm cmp run).append_left front)
  rw [sortedBy_eq]
  simpa only [List.nil_append, runsOf_flatten] using fold (runsOf 19 as) []

theorem mem_sortedBy {as : List α} {a : α} : a ∈ sortedBy cmp as ↔ a ∈ as :=
  (sortedBy_perm cmp as).mem_iff

theorem sortedBy_congr {cmp cmp' : α → α → Ordering} {as : List α}
    (h : ∀ a ∈ as, ∀ b ∈ as, cmp a b = cmp' a b) : sortedBy cmp as = sortedBy cmp' as := by
  have hr := Coupling.plain.rel_stableSort (p := cmp) (q := cmp') (fun a b a' b' h₁ h₂ ↦ by
    obtain ⟨rfl, ha⟩ := h₁
    obtain ⟨rfl, hb⟩ := h₂
    exact h a ha a' hb) (Coupling.forall₂_mem_same as)
  exact Coupling.eq_of_forall₂ hr

section Lawful

def Ascending (as : List α) : Prop :=
  as.Pairwise fun a b ↦ (cmp a b).isLE

variable {cmp} [Std.TransCmp cmp]

theorem isLE_of_not_lt {a b : α} (h : ¬cmp a b = .lt) : (cmp b a).isLE :=
  Std.OrientedCmp.isGE_iff_isLE.1 (by cases hc : cmp a b <;> simp_all)

theorem inserted_descending {a : α} {as : List α} (h : Ascending (fun a b ↦ cmp b a) as) :
    Ascending (fun a b ↦ cmp b a) (inserted cmp a as) := by
  induction as with
  | nil => exact List.pairwise_singleton _ a
  | cons b as ih =>
    have hb := List.pairwise_cons.1 h
    rw [inserted_cons]
    split
    · next hlt =>
      refine List.pairwise_cons.2 ⟨fun c hc ↦ ?_, ih hb.2⟩
      rcases List.mem_cons.1 ((inserted_perm cmp a as).mem_iff.1 hc) with rfl | hc
      · exact Ordering.isLE_of_eq_lt hlt
      · exact hb.1 c hc
    · next hlt =>
      have hba := isLE_of_not_lt hlt
      refine List.pairwise_cons.2 ⟨fun c hc ↦ ?_, h⟩
      rcases List.mem_cons.1 hc with rfl | hc
      · exact hba
      · exact Std.TransCmp.isLE_trans (hb.1 c hc) hba

theorem sortedRun_ascending (as : List α) : Ascending cmp (sortedRun cmp as) := by
  have fold (run : List α) (h : Ascending (fun a b ↦ cmp b a) run) :
      Ascending (fun a b ↦ cmp b a) (as.foldl (fun run a ↦ inserted cmp a run) run) := by
    induction as generalizing run with
    | nil => exact h
    | cons a as ih => exact ih _ (inserted_descending h)
  rw [sortedRun_eq]
  exact List.pairwise_reverse.2 (fold [] .nil)

theorem merged_ascending {as bs : List α} (ha : Ascending cmp as) (hb : Ascending cmp bs) :
    Ascending cmp (merged cmp as bs) := by
  induction as generalizing bs with
  | nil => rwa [merged_nil_left]
  | cons a as ih =>
    induction bs with
    | nil => rwa [merged_nil_right]
    | cons b bs ih' =>
      have ha' := List.pairwise_cons.1 ha
      have hb' := List.pairwise_cons.1 hb
      rw [merged_cons]
      split
      · next hlt =>
        have hba := Ordering.isLE_of_eq_lt hlt
        refine List.pairwise_cons.2 ⟨fun c hc ↦ ?_, ih' hb'.2⟩
        rcases List.mem_append.1 ((merged_perm cmp _ _).mem_iff.1 hc) with hc | hc
        · rcases List.mem_cons.1 hc with rfl | hc
          · exact hba
          · exact Std.TransCmp.isLE_trans hba (ha'.1 c hc)
        · exact hb'.1 c hc
      · next hlt =>
        have hab := isLE_of_not_lt hlt
        refine List.pairwise_cons.2 ⟨fun c hc ↦ ?_, ih ha'.2 hb⟩
        rcases List.mem_append.1 ((merged_perm cmp _ _).mem_iff.1 hc) with hc | hc
        · exact ha'.1 c hc
        · rcases List.mem_cons.1 hc with rfl | hc
          · exact hab
          · exact Std.TransCmp.isLE_trans hab (hb'.1 c hc)

theorem sortedBy_ascending (as : List α) : Ascending cmp (sortedBy cmp as) := by
  have fold (runs : List (List α)) (front : List α) (h : Ascending cmp front) :
      Ascending cmp ((runs.map (sortedRun cmp)).foldl (merged cmp) front) := by
    induction runs generalizing front with
    | nil => exact h
    | cons run runs ih => exact ih _ (merged_ascending h (sortedRun_ascending run))
  rw [sortedBy_eq]
  exact fold _ [] .nil

theorem merged_of_ascending {as bs : List α} (h : Ascending cmp (as ++ bs)) :
    merged cmp as bs = as ++ bs := by
  induction as with
  | nil => rw [merged_nil_left, List.nil_append]
  | cons a as ih =>
    cases bs with
    | nil => rw [merged_nil_right, List.append_nil]
    | cons b bs =>
      have ha := List.pairwise_cons.1 h
      rw [merged_cons, if_neg (Std.OrientedCmp.not_lt_of_isLE (ha.1 b (by simp))), ih ha.2, List.cons_append]

theorem sortedRun_of_ascending {as : List α} (h : Ascending cmp as) : sortedRun cmp as = as := by
  have fold (as run : List α) (h : Ascending cmp (run.reverse ++ as)) :
      (as.foldl (fun run a ↦ inserted cmp a run) run).reverse = run.reverse ++ as := by
    induction as generalizing run with
    | nil => rw [List.append_nil]; rfl
    | cons a as ih =>
      have hi : inserted cmp a run = a :: run := by
        cases run with
        | nil => rfl
        | cons b run =>
          have hb := (List.pairwise_append.1 h).2.2 b (by simp) a List.mem_cons_self
          rw [inserted_cons, if_neg (Std.OrientedCmp.not_lt_of_isLE hb)]
      rw [List.foldl_cons, hi, ih _ (by simpa using h)]
      simp
  rw [sortedRun_eq]
  exact fold as [] h

theorem sortedBy_of_ascending {as : List α} (h : Ascending cmp as) : sortedBy cmp as = as := by
  have fold (runs : List (List α)) (front : List α) (h : Ascending cmp (front ++ runs.flatten)) :
      (runs.map (sortedRun cmp)).foldl (merged cmp) front = front ++ runs.flatten := by
    induction runs generalizing front with
    | nil => exact (List.append_nil front).symm
    | cons run runs ih =>
      rw [List.flatten_cons, ← List.append_assoc] at h ⊢
      have hfront : Ascending cmp (front ++ run) := (List.pairwise_append.1 h).1
      have hrun : Ascending cmp run := (List.pairwise_append.1 hfront).2.1
      rw [List.map_cons, List.foldl_cons, sortedRun_of_ascending hrun, merged_of_ascending hfront]
      exact ih _ h
  rw [sortedBy_eq]
  simpa only [List.nil_append, runsOf_flatten] using
    fold (runsOf 19 as) [] (by rwa [List.nil_append, runsOf_flatten])

end Lawful

end Sorting

end TypeAlgebra
