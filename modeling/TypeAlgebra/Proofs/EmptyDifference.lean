import TypeAlgebra.Proofs.Distribution
import TypeAlgebra.Proofs.Evaluation
import TypeAlgebra.Proofs.Subtraction

namespace TypeAlgebra

theorem Ty.collapsed_eq_iff {parts : List Ty} {none t : Ty} {several : List Ty → Ty}
    (hone : ∀ p ∈ parts, p ≠ t) (hmany : ∀ ts, several ts ≠ t) :
    collapsed none several parts = t ↔ parts = [] ∧ none = t := by
  match parts with
  | [] => simp [collapsed]
  | [p] => simp [collapsed, hone]
  | p :: q :: parts => simp [collapsed, hmany]

namespace Env

variable {limit : Int64} {s t : Ty} {ts parts : List Ty}

/-- Without a limit on distribution, an intersection is `never` only for a part that is. -/
theorem met_ne_never (hl : limit ≤ 0) (hts : ∀ t ∈ ts, Spelled limit t) (hn : ∀ t ∈ ts, t ≠ .never) :
    (vacant limit).met ts ≠ .never := by
  have hnormal : ∀ t ∈ ts, Normal limit t := fun t ht ↦ (hts t ht).normal
  have hfactors : (meetFactors ts).any Ty.isNever = false := by
    rw [List.any_eq_false]
    intro q hq
    obtain ⟨t, ht, hqt⟩ := Ty.mem_factorsEach.1 (mem_meetFactors.1 hq).1
    have htn : t.isNever = false := by simpa [← Ty.isNever_iff] using hn t ht
    simp [factor_not_never (hnormal t ht) htn hqt]
  by_cases h₂ : 2 ≤ ((vacant limit).meetParts ts).length
  · have hmet := (met_alternatives hl hts hfactors h₂).1
    rw [ne_eq, ← Ty.isNever_iff, hmet]
    exact Bool.false_ne_true
  · rw [met_undistributed hnormal hfactors (.inl (by omega)), Ty.ofFactors_eq_collapsed, ne_eq,
      Ty.collapsed_eq_iff]
    · intro h
      cases h.2
    · intro p hp he
      have hplain := (meetParts_plain _ hfactors hp).2.2
      rw [he] at hplain
      cases hplain
    · intro ts h
      cases h

theorem kept_eq_nil : parts.filter (!(vacant limit).below · t) = [] ↔ ∀ p ∈ parts, Below limit p t := by
  simp [List.filter_eq_nil_iff, Below]

theorem remainder_self (hs : Normal limit s) : (vacant limit).remainder s s = .never := by
  rw [remainder, (Normal.same_iff hs hs).2 rfl, if_pos rfl]

section Distinct

variable (hs : Normal limit s) (ht : Normal limit t) (hne : s ≠ t)

include hs ht hne

theorem same_eq_false : (vacant limit).same s t = false := by
  rw [Bool.eq_false_iff, ne_eq, Normal.same_iff hs ht]
  exact hne

theorem remainder_of_any (ha : s = .any) : (vacant limit).remainder s t = .any := by
  subst ha
  rw [remainder, same_eq_false hs ht hne]
  rfl

theorem remainder_of_inter (hi : t.isInter = true) : (vacant limit).remainder s t = s := by
  rw [remainder, same_eq_false hs ht hne, hi]
  simp

theorem proper_of_ne (ha : s ≠ .any) (hn : t ≠ .never) (hi : t.isInter = false) : (vacant limit).Proper s t where
  distinct := same_eq_false hs ht hne
  not_any := by simpa [← Ty.isAny_iff] using ha
  not_never := by simpa [← Ty.isNever_iff] using hn
  not_inter := hi

end Distinct

theorem normal_never (limit : Int64) : Normal limit .never :=
  normal_atomic limit _

theorem remainder_never (hs : Normal limit s) : (vacant limit).remainder s .never = s := by
  by_cases he : s = .never
  · rw [he, remainder_self (normal_never limit)]
  · rw [remainder, same_eq_false hs (normal_never limit) he]
    simp [Ty.isNever, Ty.never]

theorem below_never_iff (hs : Normal limit s) : Below limit s .never ↔ s = .never := by
  constructor
  · exact eq_never_of_below hs
  · intro h
    rw [h]
    exact never_below (normal_never limit)

theorem remainder_eq_never_iff (hs : Normal limit s)
    (h : s ≠ t → t ≠ .never → ((vacant limit).remainder s t = .never ↔ Below limit s t)) :
    (vacant limit).remainder s t = .never ↔ Below limit s t := by
  by_cases he : s = t
  · subst he
    simp [remainder_self hs, below_refl hs]
  by_cases hn : t = .never
  · subst hn
    rw [remainder_never hs, below_never_iff hs]
  exact h he hn

theorem collapsed_kept_eq_never (hs : Normal limit (.union parts)) :
    Ty.collapsed .never .union (parts.filter (!(vacant limit).below · t)) = .never ↔
      ∀ p ∈ parts, Below limit p t := by
  rw [Ty.collapsed_eq_iff, kept_eq_nil]
  · simp
  · intro p hp h
    simpa [h, Ty.isNever, Ty.never] using hs.canonical.unionParts.plain p (List.mem_filter.1 hp).1
  · simp [Ty.never]

/-- A union is used up exactly by the types that it is a subtype of. -/
theorem remainder_union_eq_never (hs : Normal limit (.union parts)) (ht : Normal limit t)
    (hi : t.isInter = false) :
    (vacant limit).remainder (.union parts) t = .never ↔ Below limit (.union parts) t := by
  refine remainder_eq_never_iff hs fun he hn ↦ ?_
  rw [(proper_of_ne hs ht he (by simp [Ty.any]) hn hi).remainder_eq, shorn, collapsed_kept_eq_never hs,
    union_below hs ht]
  simp [Ne.symm he]

section Inter

variable (hs : Normal limit (.inter parts)) (ht : Normal limit t)

include hs ht

/-- What is left of an intersection is not `never`, since none of its parts is. -/
theorem remainder_inter_ne_never (hne : .inter parts ≠ t) :
    (vacant limit).remainder (.inter parts) t ≠ .never := by
  by_cases hn : t = .never
  · subst hn
    rw [remainder_never hs]
    exact hne
  cases hi : t.isInter
  case true =>
    rw [remainder_of_inter hs ht hne hi]
    simp [Ty.never]
  have hplain : ∀ p ∈ parts, p ≠ .never := by
    intro p hp h
    simpa [h, Ty.isNever, Ty.never] using hs.canonical.interParts.plain p hp
  rw [(proper_of_ne hs ht hne (by simp [Ty.any]) hn hi).remainder_eq, shorn, ne_eq,
    Ty.collapsed_eq_iff (fun p hp ↦ hplain p (List.mem_filter.1 hp).1) (by simp [Ty.never])]
  simp [Ty.any, Ty.never]

/-- All parts of an intersection are taken away exactly by the simple types that it is a subtype of. -/
theorem remainder_inter_eq_any (hu : t.isUnion = false) (hi : t.isInter = false) :
    (vacant limit).remainder (.inter parts) t = .any ↔ Below limit (.inter parts) t := by
  have hne : .inter parts ≠ t := by
    intro he
    rw [← he] at hi
    cases hi
  by_cases hn : t = .never
  · subst hn
    rw [remainder_never hs, below_never_iff hs]
    simp [Ty.any, Ty.never]
  have hplain : ∀ p ∈ parts, p ≠ .any := by
    intro p hp h
    simpa [h, Ty.isAny, Ty.any] using hs.canonical.interParts.plain p hp
  rw [(proper_of_ne hs ht hne (by simp [Ty.any]) hn hi).remainder_eq, shorn, inter_below hs ht hu,
    Ty.collapsed_eq_iff (fun p hp ↦ hplain p (List.mem_filter.1 hp).1) (by simp [Ty.any]), kept_eq_nil]
  simp [Ne.symm hne]

end Inter

theorem simple_iff : Simple t ↔ t.isUnion = false ∧ t.isInter = false := by
  cases t <;> simp [Simple, Ty.isUnion, Ty.isInter]

theorem union_or_inter_or_simple (t : Ty) :
    (∃ parts, t = .union parts) ∨ (∃ parts, t = .inter parts) ∨ Simple t := by
  cases t <;> simp [Simple]

theorem shorn_simple {env : Env} (hs : Simple s) (ht : Simple t) :
    env.shorn s t = if env.below s t then .never else s := by
  unfold shorn
  split
  · exact absurd rfl (hs.1 _)
  · exact absurd rfl (hs.2 _)
  · exact absurd rfl (ht.1 _)
  · rfl

theorem shorn_of_union {env : Env} (hs : Simple s) :
    env.shorn s (.union parts) = env.met [s, .collapsed .never .union (parts.filter (!env.below · s))] := by
  unfold shorn
  split
  · exact absurd rfl (hs.1 _)
  · exact absurd rfl (hs.2 _)
  · next h =>
    cases h
    rfl
  · next h => exact absurd rfl (h _)

theorem remainder_simple_eq_never (hs : Normal limit s) (ht : Normal limit t) (hss : Simple s) (hst : Simple t) :
    (vacant limit).remainder s t = .never ↔ Below limit s t := by
  refine remainder_eq_never_iff hs fun he hn ↦ ?_
  by_cases ha : s = .any
  · rw [remainder_of_any hs ht he ha]
    subst ha
    constructor
    · intro h
      cases h
    · intro h
      exact absurd (eq_any_of_below ht h).symm he
  rw [(proper_of_ne hs ht he ha hn (simple_iff.1 hst).2).remainder_eq, shorn_simple hss hst]
  by_cases hb : (vacant limit).below s t = true
  · simp [Below, hb]
  · rw [if_neg hb]
    constructor
    · intro h
      rw [h]
      exact never_below ht
    · intro h
      exact absurd h hb

theorem remainder_simple_right_eq_never (hs : Normal limit s) (ht : Normal limit t) (hst : Simple t)
    (hi : s.isInter = false) : (vacant limit).remainder s t = .never ↔ Below limit s t := by
  rcases union_or_inter_or_simple s with ⟨parts, rfl⟩ | ⟨parts, rfl⟩ | hss
  · exact remainder_union_eq_never hs ht (simple_iff.1 hst).2
  · cases hi
  · exact remainder_simple_eq_never hs ht hss hst

theorem remainder_inter_simple (hs : Normal limit s) (ht : Normal limit t) (hi : s.isInter = true)
    (hst : Simple t) : (vacant limit).remainder s t ≠ .never ∧
      ((vacant limit).remainder s t = .any ↔ Below limit s t) := by
  cases s <;> cases hi
  obtain ⟨hu, hi⟩ := simple_iff.1 hst
  exact ⟨remainder_inter_ne_never hs ht (Ne.symm (hst.2 _)), remainder_inter_eq_any hs ht hu hi⟩

/-- A simple type is used up by a union exactly if the union is a subtype of it: nothing is left of the union
then, and the sides are exchanged. -/
theorem remainder_of_union_eq_never (hl : limit ≤ 0) (hs : Spelled limit s) (ht : Spelled limit (.union parts))
    (hss : Simple s) (ha : s ≠ .any) (hn : s ≠ .never) :
    (vacant limit).remainder s (.union parts) = .never ↔ Below limit (.union parts) s := by
  have hne : s ≠ .union parts := hss.1 parts
  have hproper := proper_of_ne hs.normal ht.normal hne ha (by simp [Ty.never]) rfl
  have hspelled : Spelled limit (.collapsed .never .union (parts.filter (!(vacant limit).below · s))) := by
    rw [← joined_of_sublist ht.normal.settled List.filter_sublist]
    exact spelled_joined fun p hp ↦ ht.child (List.mem_filter.1 hp).1
  have hboth := List.forall_mem_cons.2 ⟨hs, List.forall_mem_singleton.2 hspelled⟩
  rw [hproper.remainder_eq, shorn_of_union hss, union_below ht.normal hs.normal,
    ← collapsed_kept_eq_never ht.normal]
  constructor
  · intro h
    right
    by_contra hkept
    exact met_ne_never hl hboth (List.forall_mem_cons.2 ⟨hn, List.forall_mem_singleton.2 hkept⟩) h
  · intro h
    refine met_of_mem_never (fun t ht ↦ (hboth t ht).normal.settled.founded) ?_
    simp [h.resolve_left hne]

/-- Nothing is left of a subtype only, unless a union has changed sides. -/
theorem below_of_remainder_eq_never (hl : limit ≤ 0) (hs : Spelled limit s) (ht : Spelled limit t)
    (h : (vacant limit).remainder s t = .never) :
    Below limit s t ∨ Simple s ∧ s ≠ .any ∧ t.isUnion = true ∧ Below limit t s := by
  by_cases he : s = t
  · subst he
    exact .inl (below_refl hs.normal)
  by_cases hn : s = .never
  · subst hn
    exact .inl (never_below ht.normal)
  cases hi : t.isInter
  case true =>
    rw [remainder_of_inter hs.normal ht.normal he hi] at h
    exact absurd h hn
  rcases union_or_inter_or_simple s with ⟨parts, rfl⟩ | ⟨parts, rfl⟩ | hss
  · exact .inl ((remainder_union_eq_never hs.normal ht.normal hi).1 h)
  · exact absurd h (remainder_inter_ne_never hs.normal ht.normal he)
  rcases union_or_inter_or_simple t with ⟨parts, rfl⟩ | ⟨parts, rfl⟩ | hst
  · have ha : s ≠ .any := by
      intro ha
      cases (remainder_of_any hs.normal ht.normal he ha).symm.trans h
    exact .inr ⟨hss, ha, rfl, (remainder_of_union_eq_never hl hs ht hss ha hn).1 h⟩
  · cases hi
  · exact .inl ((remainder_simple_eq_never hs.normal ht.normal hss hst).1 h)

theorem remainder_engulfed (hl : limit ≤ 0) (hs : Spelled limit s) (ht : Spelled limit t) (hss : Simple s)
    (ha : s ≠ .any) (hu : t.isUnion = true) (hb : Below limit t s) :
    (vacant limit).remainder s t = .never ∧ ¬Below limit s t := by
  cases t <;> cases hu
  have hn : s ≠ .never := by
    intro hn
    rw [hn] at hb
    cases eq_never_of_below ht.normal hb
  exact ⟨(remainder_of_union_eq_never hl hs ht hss ha hn).2 hb,
    union_not_between ht.normal hs.normal (simple_iff.1 hss).1 hb⟩

theorem exists_remainder {env : Env} (hl : env.limit ≤ 0) (hs : env.Legible s) (ht : env.Legible t) :
    ∃ r, (env.diff s t).outcome = .ok r ∧
      r.detached = (vacant env.limit).remainder s.detached t.detached := by
  obtain ⟨r, hr, -, hd⟩ := diff_detached hs.free ht.free
  have hl : (vacant env.limit).limit ≤ 0 := hl
  refine ⟨r, hr, hd.symm.trans ?_⟩
  rw [difference, diff_eq hl hs.spelled.normal.settled ht.spelled.normal.settled]
  rfl

end Env

namespace Context

open Env (Simple simple_iff)

variable {context : Context} {s t r : Ty}

/-- The second type is a union and a subtype of the first, which is neither a union nor an intersection. -/
structure Engulfs (context : Context) (s t : Ty) : Prop where
  simple : Simple s
  ne_any : s ≠ .any
  union : t.isUnion = true
  subtype : context.Subtype t s

theorem isUnion_detached : t.detached.isUnion = t.isUnion :=
  Ty.isUnion_rename _ t

theorem isInter_detached : t.detached.isInter = t.isInter :=
  Ty.isInter_rename _ t

theorem simple_detached : Simple t.detached ↔ Simple t := by
  rw [simple_iff, simple_iff, isUnion_detached, isInter_detached]

theorem detached_eq_never : t.detached = .never ↔ t = .never := by
  rw [← Ty.isNever_iff, ← Ty.isNever_iff, Ty.detached, Ty.isNever_rename]

theorem detached_eq_any : t.detached = .any ↔ t = .any := by
  rw [← Ty.isAny_iff, ← Ty.isAny_iff, Ty.detached, Ty.isAny_rename]

theorem diff_simple_eq_never (hl : context.env.limit ≤ 0) (hs : context.env.Legible s)
    (ht : context.env.Legible t) (hst : Simple t) (hr : (context.env.diff s t).outcome = .ok r) :
    (s.isInter = false → (r = .never ↔ context.Subtype s t)) ∧
      (s.isInter = true → r ≠ .never ∧ (r = .any ↔ context.Subtype s t)) := by
  obtain ⟨r', hr', hd⟩ := Env.exists_remainder hl hs ht
  cases hr.symm.trans hr'
  have hst := simple_detached.2 hst
  rw [subtype_iff hs ht, ne_eq, ← detached_eq_never, ← detached_eq_any, hd, ← isInter_detached]
  constructor
  · exact Env.remainder_simple_right_eq_never hs.spelled.normal ht.spelled.normal hst
  · intro hi
    exact Env.remainder_inter_simple hs.spelled.normal ht.spelled.normal hi hst

theorem engulfs_iff (hs : context.env.Legible s) (ht : context.env.Legible t) : context.Engulfs s t ↔
    Simple s.detached ∧ s.detached ≠ .any ∧ t.detached.isUnion = true ∧
      Env.Below context.limit t.detached s.detached := by
  rw [simple_detached, ne_eq, detached_eq_any, isUnion_detached, ← subtype_iff ht hs]
  exact ⟨fun h ↦ ⟨h.simple, h.ne_any, h.union, h.subtype⟩, fun ⟨hs, ha, hu, hb⟩ ↦ ⟨hs, ha, hu, hb⟩⟩

/--
Without a limit on distribution, the difference of parsed types is `never` only for a subtype, or where the
second type is a union inside the first. If the second type is neither a union nor an intersection, the
difference is `never` exactly for subtypes; only of an intersection that is a subtype `any` is left instead.
-/
theorem diff_eq_never (hl : context.limit ≤ 0) (hs : context.Parsed s) (ht : context.Parsed t) :
    ∃ r, (context.env.diff s t).outcome = .ok r ∧
      (r = .never → context.Subtype s t ∨ context.Engulfs s t) ∧
      (context.Engulfs s t → r = .never ∧ ¬context.Subtype s t) ∧
      (Simple t → (s.isInter = false → (r = .never ↔ context.Subtype s t)) ∧
        (s.isInter = true → r ≠ .never ∧ (r = .any ↔ context.Subtype s t))) ∧
      (context.env.diff s .any).outcome = .ok (if s.isInter then .any else .never) := by
  have hl : context.env.limit ≤ 0 := hl
  have hs := hs.legible
  have ht := ht.legible
  obtain ⟨r, hr, hd⟩ := Env.exists_remainder hl hs ht
  refine ⟨r, hr, ?_, ?_, fun hst ↦ diff_simple_eq_never hl hs ht hst hr, ?_⟩
  · rw [← detached_eq_never, hd, subtype_iff hs ht, engulfs_iff hs ht]
    exact Env.below_of_remainder_eq_never hl hs.spelled ht.spelled
  · rw [← detached_eq_never, hd, subtype_iff hs ht, engulfs_iff hs ht]
    intro h
    exact Env.remainder_engulfed hl hs.spelled ht.spelled h.1 h.2.1 h.2.2.1 h.2.2.2
  · have hany := legible_any context
    have hsub : context.Subtype s .any := (subtype_iff hs hany).2 (Env.below_any hs.spelled.normal)
    obtain ⟨r', hr', -⟩ := Env.exists_remainder hl hs hany
    obtain ⟨hempty, hinter⟩ := diff_simple_eq_never hl hs hany (simple_iff.2 ⟨rfl, rfl⟩) hr'
    rw [hr']
    cases hi : s.isInter
    · rw [(hempty hi).2 hsub]
      rfl
    · rw [(hinter hi).2.2 hsub]
      rfl

theorem parsed_procs : Parsed {} (.proc [.never] .any) ∧ Parsed {}
    (.union [.proc [.atomic .number] (.atomic .number), .proc [.atomic .string] (.atomic .string)]) :=
  ⟨⟨by decide +kernel, {}, rfl, .inl ⟨"(never -> any)", by decide +kernel⟩⟩,
    ⟨by decide +kernel, {}, rfl, .inl ⟨"(union (number -> number) (string -> string))", by decide +kernel⟩⟩⟩

-- Every function with one parameter is in the first type, and the union of two such types is inside it.
theorem diff_eq_never_engulfed :
    ((Env.mk [] 0).diff (.proc [.never] .any)
        (.union [.proc [.atomic .number] (.atomic .number), .proc [.atomic .string] (.atomic .string)])).outcome =
          .ok .never ∧
      ¬Context.Subtype {} (.proc [.never] .any)
        (.union [.proc [.atomic .number] (.atomic .number), .proc [.atomic .string] (.atomic .string)]) := by
  obtain ⟨hs, ht⟩ := parsed_procs
  obtain ⟨r, hr, -, hengulfed, -⟩ := diff_eq_never (by decide) hs ht
  obtain ⟨rfl, hsub⟩ := hengulfed ⟨simple_iff.2 ⟨rfl, rfl⟩, by decide, rfl, by decide +kernel⟩
  exact ⟨hr, hsub⟩

/--
Neither is every type with an empty difference a subtype, nor is the difference of an intersection and a
supertype empty.
-/
theorem diff_eq_never_exceptions :
    (¬∀ (context : Context) (s t : Ty), context.limit ≤ 0 → context.Parsed s → context.Parsed t →
      (context.env.diff s t).outcome = .ok .never → context.Subtype s t) ∧
    (¬∀ (context : Context) (s t : Ty), context.limit ≤ 0 → context.Parsed s → context.Parsed t → Simple t →
      ((context.env.diff s t).outcome = .ok .never ↔ context.Subtype s t)) ∧
    ¬∀ (context : Context) (s : Ty), context.limit ≤ 0 → context.Parsed s →
      (context.env.diff s .any).outcome = .ok .never := by
  have hinter : Parsed {} (.inter [.atomic .number, .atomic .string]) :=
    ⟨by decide +kernel, {}, rfl, .inl ⟨"(inter number string)", by decide +kernel⟩⟩
  have hleft : ((Env.mk [] 0).diff (.inter [.atomic .number, .atomic .string]) .any).outcome ≠ .ok .never := by
    decide +kernel
  refine ⟨fun h ↦ ?_, fun h ↦ ?_, fun h ↦ ?_⟩
  · obtain ⟨hs, ht⟩ := parsed_procs
    exact absurd (h {} _ _ (by decide) hs ht (by decide +kernel)) (by decide +kernel)
  · have hany : Parsed {} .any := ⟨by decide +kernel, {}, rfl, .inl ⟨"any", by decide +kernel⟩⟩
    exact hleft ((h {} _ _ (by decide) hinter hany (simple_iff.2 ⟨rfl, rfl⟩)).2 (by decide +kernel))
  · exact hleft (h {} _ (by decide) hinter)

end Context

end TypeAlgebra
