import TypeAlgebra.Proofs.Difference
import TypeAlgebra.Proofs.Enumeration

namespace TypeAlgebra

variable {limit size : Nat} {lengths : List Nat}

/-- The products up to the limit, and the first one above it, fit into words. -/
def InWords (limit : Nat) (lengths : List Nat) : Prop :=
  ∀ front n rest, lengths = front ++ n :: rest → front.prod ≤ limit → front.prod * n < 2 ^ 63

/-- Once the product is above the limit it does not fall to zero again. -/
def Sustained (limit : Nat) (lengths : List Nat) : Prop :=
  ∀ front rest, lengths = front ++ rest → limit < front.prod → 0 ∉ rest

theorem inWords_of_mul_lt (h : ∀ n ∈ lengths, limit * n < 2 ^ 63) : InWords limit lengths := by
  intro front n rest he hle
  have hn := h n (by simp [he])
  exact (Nat.mul_le_mul_right n hle).trans_lt hn

theorem sustained_of_not_mem (h : 0 ∉ lengths) : Sustained limit lengths := by
  intro front rest he _ hm
  apply h
  simp [he, hm]

section Words

variable (hpos : 0 < limit) (hword : limit < 2 ^ 63 - 1)

include hpos hword

theorem zero_lt_ofNat : (0 : Int64) < .ofNat limit :=
  (Int64.ofNat_lt_iff_lt (a := 0) (by omega) (by omega)).2 hpos

/-- A product that fits into a word is compared with the limit as it is. -/
theorem countFrom_cons {n : Nat} (hfit : size * n < 2 ^ 63) (rest : List Int64) :
    countFrom (.ofNat limit) (.ofNat size) (.ofNat n :: rest) =
      if limit < size * n then .ofNat (limit + 1) else countFrom (.ofNat limit) (.ofNat (size * n)) rest := by
  have hzero : Int64.ofNat limit > 0 := zero_lt_ofNat hpos hword
  have habove : Int64.ofNat (size * n) > Int64.ofNat limit ↔ limit < size * n :=
    Int64.ofNat_lt_iff_lt (by omega) hfit
  simp only [countFrom, ← Int64.ofNat_mul, hzero, habove, true_and, Int64.ofNat_add]
  rfl

/-- A count within the limit is exact. -/
theorem countFrom_within (h : ∀ front rest, lengths = front ++ rest → size * front.prod ≤ limit) :
    countFrom (.ofNat limit) (.ofNat size) (lengths.map .ofNat) = .ofNat (size * lengths.prod) := by
  induction lengths generalizing size with
  | nil => simp [countFrom]
  | cons n rest ih =>
    have hn := h [n] rest rfl
    rw [List.prod_singleton] at hn
    rw [List.map_cons, countFrom_cons hpos hword (by omega), if_neg (by omega), ih, List.prod_cons, Nat.mul_assoc]
    intro front back he
    have := h (n :: front) back (by rw [he, List.cons_append])
    rwa [List.prod_cons, ← Nat.mul_assoc] at this

/-- A count that passes the limit is given up there. -/
theorem countFrom_above {front rest : List Nat} (hsize : size ≤ limit) (ha : limit < size * front.prod)
    (hfit : ∀ before n after, front ++ rest = before ++ n :: after → size * before.prod ≤ limit →
      size * before.prod * n < 2 ^ 63) :
    countFrom (.ofNat limit) (.ofNat size) ((front ++ rest).map .ofNat) = .ofNat (limit + 1) := by
  induction front generalizing size with
  | nil =>
    simp at ha
    omega
  | cons n front ih =>
    have hn := hfit [] n (front ++ rest) rfl (by simpa using hsize)
    rw [List.prod_nil, Nat.mul_one] at hn
    rw [List.cons_append, List.map_cons, countFrom_cons hpos hword hn]
    split
    · rfl
    · refine ih (by omega) (by rwa [List.prod_cons, ← Nat.mul_assoc] at ha) fun before m after he hle ↦ ?_
      have := hfit (n :: before) m after (by rw [List.cons_append, he, List.cons_append])
      rw [List.prod_cons, ← Nat.mul_assoc] at this
      exact this hle

theorem countChoices_within (h : ∀ front rest, lengths = front ++ rest → front.prod ≤ limit) :
    countChoices (.ofNat limit) (lengths.map .ofNat) = .ofNat lengths.prod := by
  have hcount : countFrom (.ofNat limit) (.ofNat 1) (lengths.map .ofNat) = .ofNat (1 * lengths.prod) :=
    countFrom_within hpos hword (by simpa using h)
  rwa [Nat.one_mul] at hcount

theorem countChoices_above {front rest : List Nat} (hfit : InWords limit lengths) (he : lengths = front ++ rest)
    (ha : limit < front.prod) : countChoices (.ofNat limit) (lengths.map .ofNat) = .ofNat (limit + 1) := by
  subst he
  have habove : limit < 1 * front.prod := by rwa [Nat.one_mul]
  refine countFrom_above hpos hword hpos habove fun before n after hb hle ↦ ?_
  rw [Nat.one_mul] at hle ⊢
  exact hfit before n after hb hle

/-- Where the products fit into words, only an empty list that comes too late makes the count wrong. -/
theorem countChoices_eq_min_iff (hfit : InWords limit lengths) :
    (countChoices (.ofNat limit) (lengths.map .ofNat)).toInt = min (lengths.prod : Int) (limit + 1) ↔
      Sustained limit lengths := by
  by_cases h : ∃ front rest, lengths = front ++ rest ∧ limit < front.prod
  · obtain ⟨front, rest, he, ha⟩ := h
    rw [countChoices_above hpos hword hfit he ha, Int64.toInt_ofNat_of_lt (by omega)]
    constructor
    · intro hmin before after hb _ hm
      have hzero : lengths.prod = 0 := List.prod_eq_zero_iff.2 (by simp [hb, hm])
      omega
    · intro hs
      have hrest : 0 < rest.prod := Nat.pos_of_ne_zero (mt List.prod_eq_zero_iff.1 (hs front rest he ha))
      have hle : front.prod ≤ lengths.prod := by
        rw [he, List.prod_append]
        exact Nat.le_mul_of_pos_right _ hrest
      omega
  · have hle : ∀ front rest, lengths = front ++ rest → front.prod ≤ limit :=
      fun front rest he ↦ Nat.le_of_not_lt fun ha ↦ h ⟨front, rest, he, ha⟩
    have hprod := hle lengths [] (List.append_nil lengths).symm
    rw [countChoices_within hpos hword hle, Int64.toInt_ofNat_of_lt (by omega)]
    constructor
    · intro _ front rest he ha
      exact absurd ha (Nat.not_lt.2 (hle front rest he))
    · omega

end Words

namespace Env

variable {env : Env} {ts parts : List Ty}

/-- Distribution is forbidden exactly if there are more alternatives than the limit. -/
theorem exceeds_iff {unions : List (List Ty)} (hpos : 0 < limit) (hword : limit < 2 ^ 63 - 1)
    (hlimit : env.limit = .ofNat limit) (hfit : InWords limit (unions.map List.length))
    (hs : Sustained limit (unions.map List.length)) :
    env.exceeds unions = true ↔ limit < (choices unions).length := by
  have hcount := (countChoices_eq_min_iff hpos hword hfit).2 hs
  rw [List.map_map] at hcount
  have hzero := zero_lt_ofNat hpos hword
  have hlength := length_choices unions
  simp only [exceeds, hlimit, gt_iff_lt, hzero, decide_true, Bool.true_and, decide_eq_true_eq,
    Int64.lt_iff_toInt_lt, Int64.toInt_ofNat_of_lt (show limit < 2 ^ 63 by omega)]
  simp only [Function.comp_def] at hcount
  rw [hcount]
  omega

/-- If a union comes to an intersection, that is no heavier than the parts of the union. -/
theorem weight_joined_inter (ht : env.Founded (.union ts)) (h : (env.joined ts).isInter = true) :
    (env.joined ts).weight ≤ Ty.weightMax ts := by
  have hfits := ht.fits (fits_joinParts env ts)
  have hspread := (distributeTo_ample hfits).1.weight
  rw [joined_eq ht] at h ⊢
  cases hi : (Ty.ofAlternatives (env.joinParts ts)).isInter
  · rw [spread_of_not_inter env hi] at h
    cases hi.symm.trans h
  · obtain ⟨p, hp, he⟩ := Ty.eq_singleton_of_isInter hi
    obtain ⟨t, htm, hpt⟩ := Ty.mem_alternativesEach.1 (mem_joinParts (show p ∈ env.joinParts ts by simp [hp])).1
    have hweight := (Ty.alternatives_spec hpt).2.1
    have hmax := Ty.weight_le_max htm
    rw [he] at hspread ⊢
    omega

/-- An intersection stays as it is only where it is not distributed: whatever distribution makes of it is lighter. -/
theorem spread_eq_self_iff (ht : env.Founded (.inter parts)) :
    env.spread (.inter parts) = .inter parts ↔ env.keeps parts = true := by
  constructor
  · intro h
    by_contra hk
    have hk := Bool.eq_false_of_not_eq_true hk
    have hu := (Bool.or_eq_false_iff.1 hk).1
    have hmet (ds : List Ty) (hds : ds ∈ disjuncts parts) : (env.met ds).Fits (.inter ds) :=
      (meetTo_ample (ht.of_vars (disjunct_lighter hds hu).2)).1
    have hfounded := ht.fits (fits_disjuncts hu hmet)
    have hlight : Ty.weightMax ((disjuncts parts).map env.met) < (Ty.inter parts).weight := by
      have hle : Ty.weightMax ((disjuncts parts).map env.met) ≤ (Ty.inter parts).weight - 1 := by
        refine Ty.weightMax_le_iff.2 (List.forall_mem_map.2 fun ds hds ↦ ?_)
        have hds' := (disjunct_lighter hds hu).1
        have := (hmet ds hds).weight
        omega
      have := (Ty.inter parts).weight_pos
      omega
    rw [spread_distribute ht hk] at h
    have hweight := weight_joined_inter hfounded (by rw [h]; rfl)
    rw [h] at hweight
    omega
  · exact fun hk ↦ spread_keep hk

end Env

/--
Where the products fit into words, the choices are counted exactly up to the limit and as one more above it, unless an
empty list comes after the product has passed the limit. If none does, an intersection with unions among its parts
stays undistributed exactly if it has more alternatives than the limit.
-/
theorem countChoices_saturates (hpos : 0 < limit) (hword : limit < 2 ^ 63 - 1) (hfit : InWords limit lengths) :
    ((countChoices (.ofNat limit) (lengths.map .ofNat)).toInt = min (lengths.prod : Int) (limit + 1) ↔
        Sustained limit lengths) ∧
      (∀ {α : Type} (alternatives : List (List α)), alternatives.map List.length = lengths →
        (choices alternatives).length = lengths.prod) ∧
      (Sustained limit lengths → ∀ (env : Env) (parts : List Ty), env.limit = .ofNat limit →
        (Ty.unionsIn parts).map List.length = lengths → lengths ≠ [] → env.Founded (.inter parts) →
        ((env.distributeTo (env.depth [.inter parts]) (.inter parts)).outcome = .ok (.inter parts) ↔
          limit < lengths.prod)) := by
  refine ⟨countChoices_eq_min_iff hpos hword hfit, ?_, ?_⟩
  · intro α alternatives he
    rw [length_choices, he]
  · intro hs env parts hlimit he hne hfounded
    subst he
    have hunions : (Ty.unionsIn parts).isEmpty = false := by
      simpa using hne
    rw [(Env.distributeTo_ample hfounded).2 _ (Env.ample_le_depth env _), Except.ok.injEq,
      Env.spread_eq_self_iff hfounded, Env.keeps, hunions, Bool.false_or,
      Env.exceeds_iff hpos hword hlimit hfit hs, length_choices]

-- The product of 33 fours is above all words, but the count stops at the second one.
theorem countChoices_saturates_fours :
    (countChoices (.ofNat 10) ((List.replicate 33 4).map .ofNat)).toInt = 11 ∧
      ((Env.mk [] 10).distributeTo
        ((Env.mk [] 10).depth [.inter (List.replicate 33 (.union
          [.atomic .number, .atomic .boolean, .atomic .string, .atomic .void]))])
        (.inter (List.replicate 33 (.union
          [.atomic .number, .atomic .boolean, .atomic .string, .atomic .void])))).outcome =
        .ok (.inter (List.replicate 33 (.union
          [.atomic .number, .atomic .boolean, .atomic .string, .atomic .void]))) := by
  have hfit : InWords 10 (List.replicate 33 4) := inWords_of_mul_lt (by decide)
  have hs : Sustained 10 (List.replicate 33 4) := sustained_of_not_mem (by decide)
  obtain ⟨hcount, -, hkept⟩ := countChoices_saturates (by decide) (by decide) hfit
  have hprod : (List.replicate 33 4).prod = 4 ^ 33 := List.prod_replicate 33 4
  rw [hprod] at hcount hkept
  constructor
  · exact (hcount.2 hs).trans (by decide)
  · exact (hkept hs _ _ rfl (by decide) (by decide) (Env.Free.founded (by decide +kernel))).2 (by decide)

-- The count stops before an empty list is seen, and the product of 32 fours comes to zero in words.
theorem countChoices_not_saturating :
    (countChoices (.ofNat 10) ([4, 4, 0].map .ofNat)).toInt ≠ min (([4, 4, 0] : List Nat).prod : Int) (10 + 1) ∧
      (countChoices (.ofNat (2 ^ 62)) ((List.replicate 32 4).map .ofNat)).toInt ≠
        min ((List.replicate 32 4).prod : Int) (2 ^ 62 + 1) ∧
      ((Env.mk [] 10).join [.inter [.union [.atomic .number, .atomic .boolean, .atomic .string, .atomic .void],
          .union [.var ⟨"a", none⟩, .var ⟨"b", none⟩, .var ⟨"c", none⟩, .var ⟨"d", none⟩], .union []]]).outcome =
        .ok (.inter [.union [.atomic .number, .atomic .boolean, .atomic .string, .atomic .void],
          .union [.var ⟨"a", none⟩, .var ⟨"b", none⟩, .var ⟨"c", none⟩, .var ⟨"d", none⟩], .union []]) := by
  refine ⟨by decide +kernel, by decide +kernel, by decide +kernel⟩

end TypeAlgebra
