import TypeAlgebra.Proofs.ParsedTypes

namespace TypeAlgebra

inductive Ty.Within (s : Ty) : Ty → Prop
  | self : Within s s
  | child {t u : Ty} : u ∈ t.children → Within s u → Within s t

namespace Env

variable {env : Env} {s t : Ty} {parts : List Ty} {general : Ordering}

theorem Legible.child (ht : env.Legible t) (h : s ∈ t.children) : env.Legible s := by
  refine ⟨ht.free.child h, ht.spelled.child ?_⟩
  rw [Ty.detached, Ty.children_rename]
  exact List.mem_map_of_mem h

theorem Legible.within (ht : env.Legible t) (h : s.Within t) : env.Legible s := by
  induction h with
  | self => exact ht
  | child hu _ ih => exact ih (ht.child hu)

theorem Sound.unparse_eq_key (ht : env.Sound t) : env.unparse t = .ok (env.key t) := by
  obtain ⟨trees, hf⟩ := exists_form ht
  rw [key_of_form ht.toFounded hf]
  change (env.form t).map Tree.format = _
  rw [hf]
  rfl

section Legible

variable (hs : env.Legible s) (ht : env.Legible t)

include hs ht

theorem Legible.same_iff_key : env.same s t = true ↔ env.key s = env.key t := by
  rw [same_iff hs.free ht.free, key_detached hs.free, key_detached ht.free]
  exact ⟨congrArg _, key_injective hs.spelled ht.spelled⟩

theorem Legible.ordering_eq_iff (hg : general ≠ .eq) :
    env.ordering general s t = .eq ↔ env.key s = env.key t := by
  rw [← hs.same_iff_key ht, ordering]
  by_cases he : env.same s t = true
  · simp [he]
  have hkey : env.key s ≠ env.key t := fun h ↦ he ((hs.same_iff_key ht).2 h)
  rw [if_neg he]
  split
  · simp [he, hg]
  split
  · simp [he, hg]
  · simp [he, hkey]

/-- Without a limit on distribution, the order of two types is opposite in the other direction. -/
theorem Legible.ordering_swap (hl : env.limit ≤ 0) :
    env.ordering general t s = (env.ordering general s t).swap := by
  have hsame : env.same t s = env.same s t := by
    rw [Bool.eq_iff_iff, ht.same_iff_key hs, hs.same_iff_key ht, eq_comm]
  have antisymm (hst : env.below s t = true) (hts : env.below t s = true) : env.same s t = true := by
    rw [below_detached hs.free ht.free] at hst
    rw [below_detached ht.free hs.free] at hts
    exact (same_iff hs.free ht.free).2 (below_antisymm hl hs.spelled ht.spelled hst hts)
  unfold ordering
  rw [hsame]
  by_cases he : env.same s t = true
  · simp [he]
  by_cases hst : env.below s t = true
  · have hts : ¬env.below t s = true := fun hts ↦ he (antisymm hst hts)
    simp [he, hst, hts]
  by_cases hts : env.below t s = true
  · simp [he, hst, hts]
  · simp only [he, hst, hts]
    exact Std.OrientedOrd.eq_swap

end Legible

theorem compare_positions {α : Type} {cmp : α → α → Ordering} [Std.OrientedCmp cmp] {as : List α}
    (h : as.Pairwise (cmp · · = .lt)) {i j : Nat} {a b : α} (hi : as[i]? = some a) (hj : as[j]? = some b) :
    cmp a b = compare i j := by
  obtain ⟨hil, rfl⟩ := List.getElem?_eq_some_iff.1 hi
  obtain ⟨hjl, rfl⟩ := List.getElem?_eq_some_iff.1 hj
  rw [List.pairwise_iff_getElem] at h
  rcases Nat.lt_trichotomy i j with hlt | rfl | hgt
  · rw [h i j hil hjl hlt, Nat.compare_eq_lt.2 hlt]
  · rw [Nat.compare_eq_eq.2 rfl]
    exact Std.ReflCmp.compare_self
  · rw [Nat.compare_eq_gt.2 hgt]
    exact Std.OrientedCmp.gt_of_lt (h j i hjl hil hgt)

/-- Unrelated types have different texts. -/
theorem Sifted.strict (hp : ∀ p ∈ parts, env.Legible p) (h : env.Sifted parts) :
    parts.Pairwise (compareOn env.key · · = .lt) := by
  refine (h.apart.and h.ascending).imp_of_mem fun {s t} hs ht hst ↦ ?_
  obtain ⟨⟨hbelow, -⟩, hle⟩ := hst
  have hkey : env.key s ≠ env.key t := by
    intro he
    have hsame := (same_iff (hp s hs).free (hp t ht).free).1 (((hp s hs).same_iff_key (hp t ht)).2 he)
    rw [below_detached (hp s hs).free (hp t ht).free, hsame] at hbelow
    cases hbelow.symm.trans (below_refl (hp t ht).spelled.normal)
  cases hc : compareOn env.key s t with
  | lt => rfl
  | eq => exact absurd (Std.LawfulEqOrd.eq_of_compare hc) hkey
  | gt =>
    rw [hc] at hle
    cases hle

/-- The parts of a union or an intersection compare as their positions do. -/
theorem Sifted.ordering_eq (hp : ∀ p ∈ parts, env.Legible p) (h : env.Sifted parts) {i j : Nat}
    (hi : parts[i]? = some s) (hj : parts[j]? = some t) : env.ordering general s t = compare i j := by
  have hs := List.mem_of_getElem? hi
  have ht := List.mem_of_getElem? hj
  rw [ordering_eq_compare (hp s hs).settled.sound (hp t ht).settled.sound (eq_or_apart h.apart hs ht)]
  exact compare_positions (h.strict hp) hi hj

end Env

namespace Context

variable {context : Context} {a b : Ty}

/--
For parsed types equality, the text and the order agree. Without a limit on distribution the order is also
opposite in the other direction. Inside a parsed type the parts of every union, and the parts of every
intersection, are in strictly increasing order.
-/
theorem order_agrees (ha : context.Parsed a) (hb : context.Parsed b) :
    (∃ verdict text text' o, context.env.equal a b = .ok verdict ∧
      context.env.unparse a = .ok text ∧ context.env.unparse b = .ok text' ∧
      (context.env.order a b).outcome = .ok o ∧
      (verdict = true ↔ text = text') ∧ (o = .eq ↔ text = text') ∧
      (context.limit ≤ 0 → (context.env.order b a).outcome = .ok o.swap)) ∧
    ∀ (parts : List Ty) (i j : Nat) (p q : Ty), parts[i]? = some p → parts[j]? = some q →
      ((Ty.union parts).Within a → (context.env.order p q).outcome = .ok (compare i j)) ∧
      ((Ty.inter parts).Within a →
        (context.env.interOrder (context.env.depth [p, q]) context.env.subtype p q).outcome =
          .ok (compare i j)) := by
  have ha := ha.legible
  have hb := hb.legible
  have hfa := ha.free.founded
  have hfb := hb.free.founded
  refine ⟨⟨_, _, _, _, Env.equal_eq hfa hfb, ha.settled.sound.unparse_eq_key,
    hb.settled.sound.unparse_eq_key, Env.orderBy_eq hfa hfb _, ha.same_iff_key hb,
    ha.ordering_eq_iff hb (by decide), fun hl ↦ ?_⟩, fun parts i j p q hi hj ↦ ⟨fun h ↦ ?_, fun h ↦ ?_⟩⟩
  · rw [← ha.ordering_swap hb hl]
    exact Env.orderBy_eq hfb hfa _
  all_goals
    have hparts : ∀ p ∈ parts, context.env.Legible p := fun p hp ↦ (ha.within h).child hp
    have hp := (hparts p (List.mem_of_getElem? hi)).free.founded
    have hq := (hparts q (List.mem_of_getElem? hj)).free.founded
  · rw [← (ha.within h).settled.unionParts_sifted.ordering_eq hparts hi hj]
    exact Env.orderBy_eq hp hq _
  · rw [← (ha.within h).settled.interParts_sifted.ordering_eq hparts hi hj]
    exact Env.orderBy_eq hp hq _

-- The types differ in the variables they have, but not in the names.
theorem order_agrees_two_variables :
    ((Env.mk [⟨"x", none⟩, ⟨"x", none⟩] 1).order
        (.proc [.union [.atomic .number, .var ⟨"x", some 0⟩]] (.atomic .string))
        (.proc [.union [.atomic .number, .var ⟨"x", some 1⟩]] (.atomic .string))).outcome = .ok .eq ∧
      ((Env.mk [⟨"x", none⟩, ⟨"x", none⟩] 1).order (.var ⟨"x", some 0⟩) (.atomic .number)).outcome =
        .ok .gt := by
  have ha : Parsed { cells := [⟨"x", none⟩, ⟨"x", none⟩], limit := 1 }
      (.proc [.union [.atomic .number, .var ⟨"x", some 0⟩]] (.atomic .string)) :=
    ⟨by decide +kernel, { limit := 1 }, rfl, .inl ⟨"((union x number) -> string)", by decide +kernel⟩⟩
  have hb : Parsed { cells := [⟨"x", none⟩, ⟨"x", none⟩], limit := 1 }
      (.proc [.union [.atomic .number, .var ⟨"x", some 1⟩]] (.atomic .string)) :=
    ⟨by decide +kernel, { cells := [⟨"x", none⟩], limit := 1 }, rfl,
      .inl ⟨"((union number x) -> string)", by decide +kernel⟩⟩
  obtain ⟨⟨verdict, text, text', o, hequal, -, -, ho, hv, heq, -⟩, hparts⟩ := order_agrees ha hb
  have hverdict : verdict = true := Except.ok.inj (hequal.symm.trans (by decide +kernel))
  rw [heq.2 (hv.1 hverdict)] at ho
  exact ⟨ho, (hparts _ 1 0 _ _ rfl rfl).1 (.child List.mem_cons_self .self)⟩

end Context

end TypeAlgebra
