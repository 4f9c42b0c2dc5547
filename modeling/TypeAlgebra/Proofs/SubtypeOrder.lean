import TypeAlgebra.Proofs.NormalType

namespace TypeAlgebra

namespace Ty

variable {q : Ty → Ty → Bool} {s t : Ty} {parts : List Ty}

theorem isAny_iff : t.isAny = true ↔ t = any := by
  cases t <;> simp [isAny, any]

theorem isNever_iff : t.isNever = true ↔ t = never := by
  cases t <;> simp [isNever, never]

theorem allM_iff {p : Ty → Bool} : parts.allM (m := Id) p = true ↔ ∀ t ∈ parts, p t = true := by
  rw [← List.all_eq_true]
  exact Eq.congr_left List.allM_pure

theorem anyM_iff {p : Ty → Bool} : parts.anyM (m := Id) p = true ↔ ∃ t ∈ parts, p t = true := by
  rw [← List.any_eq_true]
  exact Eq.congr_left List.anyM_pure

theorem subtypeBy_union_left :
    subtypeBy (m := Id) q (union parts) t = true ↔ ∀ p ∈ parts, q p t = true :=
  allM_iff

theorem subtypeBy_union_right (hu : s.isUnion = false) :
    subtypeBy (m := Id) q s (union parts) = true ↔ s.isTuple = false ∧ ∃ p ∈ parts, q s p = true := by
  rw [← anyM_iff]
  cases s with
  | union => cases hu
  | empty => exact ⟨nofun, fun h ↦ nomatch h.1⟩
  | tuple => exact ⟨nofun, fun h ↦ nomatch h.1⟩
  | _ => exact (and_iff_right rfl).symm

theorem subtypeBy_inter_left (hu : t.isUnion = false) :
    subtypeBy (m := Id) q (inter parts) t = true ↔ ∀ p ∈ parts, q p t = true := by
  rw [← allM_iff]
  cases t with
  | union => cases hu
  | _ => exact Iff.rfl

theorem subtypeBy_inter_right (hu : s.isUnion = false) (hi : s.isInter = false) :
    subtypeBy (m := Id) q s (inter parts) = true ↔ s.isTuple = false ∧ ∃ p ∈ parts, q s p = true := by
  rw [← anyM_iff]
  cases s with
  | union => cases hu
  | inter => cases hi
  | empty => exact ⟨nofun, fun h ↦ nomatch h.1⟩
  | tuple => exact ⟨nofun, fun h ↦ nomatch h.1⟩
  | _ => exact (and_iff_right rfl).symm

end Ty

namespace Env

variable {limit : Int64} {a b c s t : Ty} {parts : List Ty}

def Below (limit : Int64) (s t : Ty) : Prop :=
  (vacant limit).below s t = true

theorem Normal.leftOf (hs : Normal limit s) : (vacant limit).leftOf s = s := by
  have hr := hs.free.resolved.resolved_eq
  rw [Env.leftOf, hr]
  cases s with
  | inter parts =>
    have hp : ∀ p ∈ parts, (vacant limit).Sound p := fun p hp ↦ (hs.child hp).settled.sound
    change (vacant limit).resolved ((vacant limit).met parts) = _
    rw [met_of_interParts hp hs.canonical.interParts, hr]
  | _ => rfl

theorem Normal.rightOf (ht : Normal limit t) : (vacant limit).rightOf t = t := by
  have hr := ht.free.resolved.resolved_eq
  rw [Env.rightOf, hr]
  cases t with
  | union parts =>
    have hp : ∀ p ∈ parts, (vacant limit).Sound p := fun p hp ↦ (ht.child hp).settled.sound
    change (vacant limit).resolved ((vacant limit).joined parts) = _
    rw [joined_of_unionParts hp ht.canonical.unionParts, hr]
  | _ => rfl

/-- Normal types are compared as they are. -/
theorem below_iff (hs : Normal limit s) (ht : Normal limit t) :
    Below limit s t ↔ s = t ∨ t = .any ∨ s = .never ∨
      Ty.subtypeBy (m := Id) (vacant limit).below s t = true := by
  rw [Below, below_eq hs.free.founded ht.free.founded, hs.leftOf, ht.rightOf, Bool.or_eq_true,
    Bool.or_eq_true, Bool.or_eq_true, hs.same_iff ht, Ty.isAny_iff, Ty.isNever_iff]
  tauto

theorem below_refl (hs : Normal limit s) : Below limit s s :=
  (below_iff hs hs).2 (.inl rfl)

theorem below_any (hs : Normal limit s) : Below limit s .any :=
  (below_iff hs (normal_atomic limit _)).2 (.inr (.inl rfl))

theorem never_below (ht : Normal limit t) : Below limit .never t :=
  (below_iff (normal_atomic limit _) ht).2 (.inr (.inr (.inl rfl)))

theorem union_below (hs : Normal limit (.union parts)) (ht : Normal limit t) :
    Below limit (.union parts) t ↔ t = .union parts ∨ ∀ p ∈ parts, Below limit p t := by
  rw [below_iff hs ht, Ty.subtypeBy_union_left]
  constructor
  · rintro (rfl | rfl | h | h)
    · exact .inl rfl
    · exact .inr fun p hp ↦ below_any (hs.child hp)
    · cases h
    · exact .inr h
  · rintro (rfl | h)
    · exact .inl rfl
    · exact .inr (.inr (.inr h))

theorem below_union (hs : Normal limit s) (ht : Normal limit (.union parts)) (hu : s.isUnion = false) :
    Below limit s (.union parts) ↔ s.isTuple = false ∧ ∃ p ∈ parts, Below limit s p := by
  rw [below_iff hs ht, Ty.subtypeBy_union_right hu]
  constructor
  · rintro (rfl | h | rfl | h)
    · cases hu
    · cases h
    · obtain ⟨p, hp⟩ := List.exists_mem_of_length_pos (Nat.zero_lt_of_lt ht.canonical.unionParts.several)
      exact ⟨rfl, p, hp, never_below (ht.child hp)⟩
    · exact h
  · exact fun h ↦ .inr (.inr (.inr h))

theorem inter_below (hs : Normal limit (.inter parts)) (ht : Normal limit t) (hu : t.isUnion = false) :
    Below limit (.inter parts) t ↔ t = .inter parts ∨ ∀ p ∈ parts, Below limit p t := by
  rw [below_iff hs ht, Ty.subtypeBy_inter_left hu]
  constructor
  · rintro (rfl | rfl | h | h)
    · exact .inl rfl
    · exact .inr fun p hp ↦ below_any (hs.child hp)
    · cases h
    · exact .inr h
  · rintro (rfl | h)
    · exact .inl rfl
    · exact .inr (.inr (.inr h))

theorem below_inter (hs : Normal limit s) (ht : Normal limit (.inter parts)) (hu : s.isUnion = false)
    (hi : s.isInter = false) :
    Below limit s (.inter parts) ↔ s.isTuple = false ∧ ∃ p ∈ parts, Below limit s p := by
  rw [below_iff hs ht, Ty.subtypeBy_inter_right hu hi]
  constructor
  · rintro (rfl | h | rfl | h)
    · cases hi
    · cases h
    · obtain ⟨p, hp⟩ := List.exists_mem_of_length_pos (Nat.zero_lt_of_lt ht.canonical.interParts.several)
      exact ⟨rfl, p, hp, never_below (ht.child hp)⟩
    · exact h
  · exact fun h ↦ .inr (.inr (.inr h))

/-- The rules for procedures and tuples: parameters the other way round, all else component by component. -/
inductive Componentwise (limit : Int64) : Ty → Ty → Prop
  | proc {params params' : List Ty} {result result' : Ty} :
      List.Forall₂ (fun p p' ↦ Below limit p' p) params params' → Below limit result result' →
      Componentwise limit (.proc params result) (.proc params' result')
  | tuple {elems elems' : List Ty} :
      List.Forall₂ (Below limit) elems elems' → Componentwise limit (.tuple elems) (.tuple elems')

theorem simple_below (hs : Normal limit s) (ht : Normal limit t) (hu : s.isUnion = false)
    (hi : s.isInter = false) (hu' : t.isUnion = false) (hi' : t.isInter = false) :
    Below limit s t ↔ s = t ∨ t = .any ∨ s = .never ∨ Componentwise limit s t := by
  rw [below_iff hs ht]
  refine or_congr_right' fun hne ↦ or_congr_right (or_congr_right ?_)
  constructor
  · intro h
    cases s <;> cases t <;> first
      | (cases h; done) | (cases hu; done) | (cases hi; done) | (cases hu'; done) | (cases hi'; done) | skip
    case atomic.atomic j k => exact absurd (congrArg Ty.atomic (eq_of_beq h)) hne
    case var.var v w =>
      refine absurd (congrArg Ty.var ?_) hne
      have hv := hs.named v (List.mem_singleton_self v)
      have hw := ht.named w (List.mem_singleton_self w)
      cases v
      cases w
      cases hv
      cases hw
      exact congrArg (Var.mk · none) (eq_of_beq h)
    case proc.proc =>
      obtain ⟨hp, hr⟩ := Ty.allPairs_bind_iff.1 h
      exact .proc hp hr
    case empty.empty => exact absurd rfl hne
    case tuple.tuple => exact .tuple (allPairs_iff.1 h)
  · intro h
    cases h with
    | proc hp hr => exact Ty.allPairs_bind_iff.2 ⟨hp, hr⟩
    | tuple he => exact allPairs_iff.2 he

theorem eq_any_of_below (ht : Normal limit t) (h : Below limit .any t) : t = .any := by
  have hany : Normal limit .any := normal_atomic limit _
  induction t using Ty.induction_children with
  | step t ih =>
    have not_part {parts : List Ty} (hc : ∀ p ∈ parts, p ∈ t.children)
        (hp : ∀ p ∈ parts, p.isAny = false) (h : ∃ p ∈ parts, Below limit .any p) : t = .any := by
      obtain ⟨p, hm, hb⟩ := h
      have hp := hp p hm
      rw [ih p (hc p hm) (ht.child (hc p hm)) hb] at hp
      cases hp
    cases hu : t.isUnion
    · cases hi : t.isInter
      · rcases (simple_below hany ht rfl rfl hu hi).1 h with h | h | h | h
        · exact h.symm
        · exact h
        · cases h
        · cases h
      · cases t <;> cases hi
        exact not_part (fun p hp ↦ hp) (fun p hp ↦ (ht.canonical.interParts.plain p hp).2.1)
          ((below_inter hany ht rfl rfl).1 h).2
    · cases t <;> cases hu
      exact not_part (fun p hp ↦ hp) (fun p hp ↦ (ht.canonical.unionParts.plain p hp).2.2)
        ((below_union hany ht rfl).1 h).2

theorem eq_never_of_below (hs : Normal limit s) (h : Below limit s .never) : s = .never := by
  have hnever : Normal limit .never := normal_atomic limit _
  induction s using Ty.induction_children with
  | step s ih =>
    have not_part {parts : List Ty} (hc : ∀ p ∈ parts, p ∈ s.children) (h₂ : 2 ≤ parts.length)
        (hp : ∀ p ∈ parts, p.isNever = false) (h : ∀ p ∈ parts, Below limit p .never) : s = .never := by
      obtain ⟨p, hm⟩ := List.exists_mem_of_length_pos (Nat.zero_lt_of_lt h₂)
      have hp := hp p hm
      rw [ih p (hc p hm) (hs.child (hc p hm)) (h p hm)] at hp
      cases hp
    cases hu : s.isUnion
    · cases hi : s.isInter
      · rcases (simple_below hs hnever hu hi rfl rfl).1 h with h | h | h | h
        · exact h
        · cases h
        · exact h
        · cases h
      · cases s <;> cases hi
        have hparts := hs.canonical.interParts
        rcases (inter_below hs hnever rfl).1 h with h | h
        · cases h
        · exact not_part (fun p hp ↦ hp) hparts.several (fun p hp ↦ (hparts.plain p hp).2.2) h
    · cases s <;> cases hu
      have hparts := hs.canonical.unionParts
      rcases (union_below hs hnever).1 h with h | h
      · cases h
      · exact not_part (fun p hp ↦ hp) hparts.several (fun p hp ↦ (hparts.plain p hp).2.1) h

/-- Only tuples and `any` are above a tuple. -/
theorem isTuple_of_below (hs : Normal limit s) (ht : Normal limit t) (htup : s.isTuple = true)
    (h : Below limit s t) : t = .any ∨ t.isTuple = true := by
  have hus : s.isUnion = false := by cases s <;> first | rfl | cases htup
  have his : s.isInter = false := by cases s <;> first | rfl | cases htup
  cases hu : t.isUnion
  · cases hi : t.isInter
    · rcases (simple_below hs ht hus his hu hi).1 h with rfl | h | rfl | h
      · exact .inr htup
      · exact .inl h
      · cases htup
      · cases h with
        | proc => cases htup
        | tuple => exact .inr rfl
    · cases t <;> cases hi
      cases htup.symm.trans ((below_inter hs ht hus his).1 h).1
  · cases t <;> cases hu
    cases htup.symm.trans ((below_union hs ht hus).1 h).1

theorem forall₂_chain {R S T : Ty → Ty → Prop} {as bs cs : List Ty} (h : List.Forall₂ R as bs)
    (h' : List.Forall₂ S bs cs)
    (ht : ∀ a ∈ as, ∀ b ∈ bs, ∀ c ∈ cs, R a b → S b c → T a c) : List.Forall₂ T as cs := by
  induction h generalizing cs with
  | nil =>
    cases h'
    exact .nil
  | cons hd _ ih =>
    cases h' with
    | cons hd' htl =>
      refine .cons (ht _ List.mem_cons_self _ List.mem_cons_self _ List.mem_cons_self hd hd') ?_
      exact ih htl fun a ha b hb c hc ↦
        ht a (List.mem_cons_of_mem _ ha) b (List.mem_cons_of_mem _ hb) c (List.mem_cons_of_mem _ hc)

section Transitivity

def TransUpTo (limit : Int64) (n : Nat) : Prop :=
  ∀ a b c, Normal limit a → Normal limit b → Normal limit c → a.size + b.size + c.size < n →
    Below limit a b → Below limit b c → Below limit a c

variable {n : Nat} (ih : TransUpTo limit n) (ha : Normal limit a) (hb : Normal limit b)

include ih ha hb

/-- The chain goes on to a part of the union or intersection above `b`. -/
theorem TransUpTo.part (hn : a.size + b.size + Ty.sizeEach parts < n)
    (hparts : ∀ p ∈ parts, Normal limit p ∧ p.isAny = false) (hab : Below limit a b)
    (h : b.isTuple = false ∧ ∃ p ∈ parts, Below limit b p) :
    a.isTuple = false ∧ ∃ p ∈ parts, Below limit a p := by
  obtain ⟨htup, p, hp, hbp⟩ := h
  have hsize := Ty.size_le_sizeEach hp
  refine ⟨?_, p, hp, ih a b p ha hb (hparts p hp).1 (by omega) hab hbp⟩
  by_contra hat
  rcases isTuple_of_below ha hb (Bool.eq_true_of_not_eq_false hat) hab with rfl | hbt
  · have hany := (hparts p hp).2
    rw [eq_any_of_below (hparts p hp).1 hbp] at hany
    cases hany
  · cases hbt.symm.trans htup

theorem TransUpTo.componentwise (hc : Normal limit c) (hn : a.size + b.size + c.size ≤ n)
    (hab : Componentwise limit a b) (hbc : Componentwise limit b c) : Componentwise limit a c := by
  have step {x y z : Ty} (hx : x ∈ a.children) (hy : y ∈ b.children) (hz : z ∈ c.children) :
      (Below limit x y → Below limit y z → Below limit x z) ∧
        (Below limit y x → Below limit z y → Below limit z x) := by
    have hsx := Ty.size_lt_of_child hx
    have hsy := Ty.size_lt_of_child hy
    have hsz := Ty.size_lt_of_child hz
    have hnx := ha.child hx
    have hny := hb.child hy
    have hnz := hc.child hz
    exact ⟨ih x y z hnx hny hnz (by omega), fun hyx hzy ↦ ih z y x hnz hny hnx (by omega) hzy hyx⟩
  cases hab with
  | proc hp hr =>
    cases hbc with
    | proc hp' hr' =>
      refine .proc (forall₂_chain hp hp' fun x hx y hy z hz ↦ ?_) ?_
      · exact (step (List.mem_append_left _ hx) (List.mem_append_left _ hy)
          (List.mem_append_left _ hz)).2
      · exact (step (by simp [Ty.children]) (by simp [Ty.children]) (by simp [Ty.children])).1 hr hr'
  | tuple he =>
    cases hbc with
    | tuple he' => exact .tuple (forall₂_chain he he' fun x hx y hy z hz ↦ (step hx hy hz).1)

/-- The chain between types none of which is a union or an intersection. -/
theorem TransUpTo.simple (hc : Normal limit c) (hn : a.size + b.size + c.size ≤ n)
    (hua : a.isUnion = false) (hia : a.isInter = false) (hub : b.isUnion = false)
    (hib : b.isInter = false) (huc : c.isUnion = false) (hic : c.isInter = false)
    (hab : Below limit a b) (hbc : Below limit b c) : Below limit a c := by
  rcases (simple_below ha hb hua hia hub hib).1 hab with rfl | rfl | rfl | hab
  · exact hbc
  · rw [eq_any_of_below hc hbc]
    exact below_any ha
  · exact never_below hc
  · rcases (simple_below hb hc hub hib huc hic).1 hbc with rfl | rfl | rfl | hbc
    · exact (simple_below ha hb hua hia hub hib).2 (.inr (.inr (.inr hab)))
    · exact below_any ha
    · cases hab
    · refine (simple_below ha hc hua hia huc hic).2 (.inr (.inr (.inr ?_)))
      exact ih.componentwise ha hb hc hn hab hbc

end Transitivity

/--
The subtype relation is transitive. The cases follow the order of the rules: a union is taken apart first
on the left, then in the middle, then on the right, and after the unions the intersections.
-/
theorem below_trans (ha : Normal limit a) (hb : Normal limit b) (hc : Normal limit c)
    (hab : Below limit a b) (hbc : Below limit b c) : Below limit a c := by
  have upTo (n : Nat) : TransUpTo limit n := by
    induction n with
    | zero => exact fun _ _ _ _ _ _ h ↦ absurd h (Nat.not_lt_zero _)
    | succ n ih =>
      intro a b c ha hb hc hn hab hbc
      cases hua : a.isUnion
      case true =>
        cases a <;> cases hua
        rename_i parts
        rcases (union_below ha hb).1 hab with rfl | h
        · exact hbc
        · refine (union_below ha hc).2 (.inr fun p hp ↦ ?_)
          have := Ty.size_lt_of_child (t := .union parts) hp
          exact ih p b c (ha.child hp) hb hc (by omega) (h p hp) hbc
      cases hub : b.isUnion
      case true =>
        cases b <;> cases hub
        rename_i parts
        obtain ⟨-, p, hp, hap⟩ := (below_union ha hb hua).1 hab
        rcases (union_below hb hc).1 hbc with rfl | h
        · exact hab
        · have := Ty.size_lt_of_child (t := .union parts) hp
          exact ih a p c ha (hb.child hp) hc (by omega) hap (h p hp)
      cases huc : c.isUnion
      case true =>
        cases c <;> cases huc
        rename_i parts
        refine (below_union ha hc hua).2 (ih.part ha hb ?_ ?_ hab ((below_union hb hc hub).1 hbc))
        · simp only [Ty.size] at hn
          omega
        · exact fun p hp ↦ ⟨hc.child hp, (hc.canonical.unionParts.plain p hp).2.2⟩
      cases hia : a.isInter
      case true =>
        cases a <;> cases hia
        rename_i parts
        rcases (inter_below ha hb hub).1 hab with rfl | h
        · exact hbc
        · refine (inter_below ha hc huc).2 (.inr fun p hp ↦ ?_)
          have := Ty.size_lt_of_child (t := .inter parts) hp
          exact ih p b c (ha.child hp) hb hc (by omega) (h p hp) hbc
      cases hib : b.isInter
      case true =>
        cases b <;> cases hib
        rename_i parts
        obtain ⟨-, p, hp, hap⟩ := (below_inter ha hb hua hia).1 hab
        rcases (inter_below hb hc huc).1 hbc with rfl | h
        · exact hab
        · have := Ty.size_lt_of_child (t := .inter parts) hp
          exact ih a p c ha (hb.child hp) hc (by omega) hap (h p hp)
      cases hic : c.isInter
      case true =>
        cases c <;> cases hic
        rename_i parts
        refine (below_inter ha hc hua hia).2
          (ih.part ha hb ?_ ?_ hab ((below_inter hb hc hub hib).1 hbc))
        · simp only [Ty.size] at hn
          omega
        · exact fun p hp ↦ ⟨hc.child hp, (hc.canonical.interParts.plain p hp).2.1⟩
      exact ih.simple ha hb hc (by omega) hua hia hub hib huc hic hab hbc
  exact upTo _ a b c ha hb hc (Nat.lt_succ_self _) hab hbc

end Env

end TypeAlgebra
