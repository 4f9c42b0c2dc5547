import TypeAlgebra.Proofs.Detachment

namespace TypeAlgebra

namespace Ty

variable {s t : Ty}

theorem Alike.imp {R S : Ty → Ty → Prop} (h : Alike R s t)
    (hi : ∀ a ∈ s.children, ∀ b ∈ t.children, R a b → S a b) : Alike S s t := by
  have each {ss ts : List Ty} (hp : List.Forall₂ R ss ts)
      (h : ∀ a ∈ ss, ∀ b ∈ ts, R a b → S a b) : List.Forall₂ S ss ts := by
    induction hp with
    | nil => exact .nil
    | cons hd _ ih =>
      refine .cons (h _ List.mem_cons_self _ List.mem_cons_self hd) (ih fun a ha b hb ↦ ?_)
      exact h a (List.mem_cons_of_mem _ ha) b (List.mem_cons_of_mem _ hb)
  cases h with
  | absent => exact .absent
  | atomic kind => exact .atomic kind
  | var hn => exact .var hn
  | proc hp hr =>
    refine .proc (each hp fun a ha b hb ↦ ?_) (hi _ (by simp [children]) _ (by simp [children]) hr)
    exact hi a (List.mem_append_left _ ha) b (List.mem_append_left _ hb)
  | empty => exact .empty
  | tuple h => exact .tuple (each h hi)
  | union h => exact .union (each h hi)
  | inter h => exact .inter (each h hi)
  | pred h => exact .pred (hi _ List.mem_cons_self _ List.mem_cons_self h)

theorem renameEach_detached_iff {ss ts : List Ty} :
    renameEach Var.detached ss = renameEach Var.detached ts ↔
      List.Forall₂ (fun a b ↦ a.detached = b.detached) ss ts := by
  rw [renameEach_eq, renameEach_eq, ← List.forall₂_eq_eq_eq, List.forall₂_map_left_iff,
    List.forall₂_map_right_iff]
  rfl

/-- Types have the same names at the same places if they are built alike from such types. -/
theorem detached_eq_iff :
    s.detached = t.detached ↔ Alike (fun a b ↦ a.detached = b.detached) s t := by
  constructor
  · intro h
    cases s <;> cases t <;> first | (cases h; done) | skip
    case absent.absent => exact .absent
    case atomic.atomic =>
      cases h
      exact .atomic _
    case var.var v w =>
      have hn : v.detached.name = w.detached.name := congrArg Var.name (Ty.var.inj h)
      exact .var hn
    case proc.proc =>
      obtain ⟨hp, hr⟩ := Ty.proc.inj h
      exact .proc (renameEach_detached_iff.1 hp) hr
    case empty.empty => exact .empty
    case tuple.tuple => exact .tuple (renameEach_detached_iff.1 (Ty.tuple.inj h))
    case union.union => exact .union (renameEach_detached_iff.1 (Ty.union.inj h))
    case inter.inter => exact .inter (renameEach_detached_iff.1 (Ty.inter.inj h))
    case pred.pred => exact .pred (Ty.pred.inj h)
  · intro h
    cases h with
    | absent => rfl
    | atomic kind => rfl
    | var hn => exact congrArg (fun n ↦ Ty.var ⟨n, none⟩) hn
    | proc hp hr => exact congrArg₂ Ty.proc (renameEach_detached_iff.2 hp) hr
    | empty => rfl
    | tuple h => exact congrArg Ty.tuple (renameEach_detached_iff.2 h)
    | union h => exact congrArg Ty.union (renameEach_detached_iff.2 h)
    | inter h => exact congrArg Ty.inter (renameEach_detached_iff.2 h)
    | pred h => exact congrArg Ty.pred h

mutual

theorem detached_of_named : ∀ t : Ty, (∀ v ∈ t.vars, v.cell = none) → t.detached = t
  | absent, _ => rfl
  | atomic _, _ => rfl
  | var v, h => congrArg var (by rw [Var.detached, ← h v (List.mem_singleton_self v)])
  | proc params result, h =>
    congrArg₂ proc (renameEach_of_named params fun v hv ↦ h v (List.mem_append_left _ hv))
      (detached_of_named result fun v hv ↦ h v (List.mem_append_right _ hv))
  | empty, _ => rfl
  | tuple elems, h => congrArg tuple (renameEach_of_named elems h)
  | union parts, h => congrArg union (renameEach_of_named parts h)
  | inter parts, h => congrArg inter (renameEach_of_named parts h)
  | pred inner, h => congrArg pred (detached_of_named inner h)

theorem renameEach_of_named :
    ∀ ts : List Ty, (∀ v ∈ varsEach ts, v.cell = none) → renameEach Var.detached ts = ts
  | [], _ => rfl
  | t :: ts, h =>
    congrArg₂ List.cons (detached_of_named t fun v hv ↦ h v (List.mem_append_left _ hv))
      (renameEach_of_named ts fun v hv ↦ h v (List.mem_append_right _ hv))

end

theorem named_detached (t : Ty) : ∀ v ∈ t.detached.vars, v.cell = none := by
  intro v hv
  rw [detached, vars_rename] at hv
  obtain ⟨w, -, rfl⟩ := List.mem_map.1 hv
  rfl

theorem whole_rename (f : Var → Var) : (t.rename f).Whole ↔ t.Whole := by
  induction t using induction_children with
  | step t ih =>
    have hc : (t.rename f).children = t.children.map (rename f) := children_rename f t
    constructor
    · intro h
      refine .node (fun he ↦ h.ne_absent (by rw [he]; rfl)) fun s hs ↦ (ih s hs).1 (h.child ?_)
      rw [hc]
      exact List.mem_map_of_mem hs
    · intro h
      refine .node (fun he ↦ h.ne_absent (by cases t <;> first | rfl | cases he)) fun s hs ↦ ?_
      rw [hc] at hs
      obtain ⟨u, hu, rfl⟩ := List.mem_map.1 hs
      exact (ih u hu).2 (h.child hu)

theorem whole_detached : t.detached.Whole ↔ t.Whole :=
  whole_rename Var.detached

end Ty

namespace Env

variable {env : Env} {s t : Ty} {parts : List Ty}

/-- Without bound variables, equal types are those with the same names at the same places. -/
theorem same_iff (hs : env.Free s) (ht : env.Free t) : env.same s t = true ↔ s.detached = t.detached := by
  induction s using Ty.induction_children generalizing t with
  | step s ih =>
    rw [same_eq hs.founded ht.founded, hs.resolved.resolved_eq, ht.resolved.resolved_eq, Ty.equalBy_iff,
      Ty.detached_eq_iff]
    constructor
    · exact fun h ↦ h.imp fun a ha b hb ↦ (ih a ha (hs.child ha) (ht.child hb)).1
    · exact fun h ↦ h.imp fun a ha b hb ↦ (ih a ha (hs.child ha) (ht.child hb)).2

theorem same_detached (hs : env.Free s) (ht : env.Free t) :
    env.same s t = (vacant env.limit).same s.detached t.detached := by
  rw [Bool.eq_iff_iff, same_iff hs ht, same_iff (free_detached _ s) (free_detached _ t),
    Ty.detached_of_named _ s.named_detached, Ty.detached_of_named _ t.named_detached]

theorem sifted_detached (h : ∀ p ∈ parts, env.Free p) :
    (vacant env.limit).Sifted (parts.map Ty.detached) ↔ env.Sifted parts := by
  have ha : (parts.map Ty.detached).Pairwise (Apart (vacant env.limit).below) ↔
      parts.Pairwise (Apart env.below) := by
    rw [List.pairwise_map]
    refine List.Pairwise.iff_of_mem fun {p q} hp hq ↦ ?_
    rw [Apart, Apart, below_detached (h p hp) (h q hq), below_detached (h q hq) (h p hp)]
  have hk : Ascending (compareOn (vacant env.limit).key) (parts.map Ty.detached) ↔
      Ascending (compareOn env.key) parts := by
    rw [Ascending, Ascending, List.pairwise_map]
    refine List.Pairwise.iff_of_mem fun {p q} hp hq ↦ ?_
    rw [compareOn, compareOn, key_detached (h p hp), key_detached (h q hq)]
  exact ⟨fun h ↦ ⟨ha.1 h.apart, hk.1 h.ascending⟩, fun h ↦ ⟨ha.2 h.apart, hk.2 h.ascending⟩⟩

theorem keeps_detached (env : Env) (parts : List Ty) :
    (vacant env.limit).keeps (parts.map Ty.detached) = env.keeps parts := by
  have hu : Ty.unionsIn (parts.map Ty.detached) = (Ty.unionsIn parts).map (List.map Ty.detached) :=
    Ty.unionsIn_rename _ parts
  rw [keeps, keeps, hu, exceeds_detached, List.isEmpty_map]

/-- A type is canonical in its environment if it is so outside of it. -/
theorem canonical_of_detached (ht : env.Free t) (hw : t.Whole)
    (h : (vacant env.limit).Canonical t.detached) : env.Canonical t := by
  induction t using Ty.induction_children with
  | step t ih =>
    have hc : t.detached.children = t.children.map Ty.detached := Ty.children_rename _ t
    have hfree : ∀ p ∈ t.children, env.Free p := fun p hp ↦ ht.child hp
    have hsound : ∀ p ∈ t.children, env.Sound p := fun p hp ↦ (hfree p hp).sound (hw.child hp)
    have hsound' : ∀ p ∈ t.children.map Ty.detached, (vacant env.limit).Sound p :=
      List.forall_mem_map.2 fun p hp ↦
        (free_detached _ p).sound (Ty.whole_detached.2 (hw.child hp))
    refine .node (fun s hs ↦ ih s hs (hfree s hs) (hw.child hs) (h.child ?_)) ?_ ?_
    · rw [hc]
      exact List.mem_map_of_mem hs
    · rintro parts rfl
      rw [Ty.detached_union] at h
      obtain ⟨h₁, h₂, h₃⟩ := (unionParts_iff hsound').1 h.unionParts
      refine (unionParts_iff hsound).2 ⟨by simpa using h₁, fun p hp ↦ ?_, (sifted_detached hfree).1 h₃⟩
      have hp' := h₂ p.detached (List.mem_map_of_mem hp)
      rwa [Ty.detached, Ty.isUnion_rename, Ty.isNever_rename, Ty.isAny_rename] at hp'
    · rintro parts rfl
      rw [Ty.detached_inter] at h
      obtain ⟨h₁, h₂, h₃, h₄⟩ := (interParts_iff hsound').1 h.interParts
      refine (interParts_iff hsound).2 ⟨by simpa using h₁, fun p hp ↦ ?_, (sifted_detached hfree).1 h₃,
        keeps_detached env parts ▸ h₄⟩
      have hp' := h₂ p.detached (List.mem_map_of_mem hp)
      rwa [Ty.detached, Ty.isInter_rename, Ty.isNever_rename, Ty.isAny_rename] at hp'

variable {limit : Int64} {ts : List Ty}

/-- A canonical type over names alone. -/
structure Normal (limit : Int64) (t : Ty) : Prop where
  named : ∀ v ∈ t.vars, v.cell = none
  whole : t.Whole
  canonical : (vacant limit).Canonical t

theorem Normal.child (ht : Normal limit t) (h : s ∈ t.children) : Normal limit s :=
  ⟨fun v hv ↦ ht.named v (Ty.mem_vars_of_child h hv), ht.whole.child h, ht.canonical.child h⟩

theorem Normal.free (ht : Normal limit t) : (vacant limit).Free t := by
  intro v hv
  rw [Cells.contents, Cells.cellOf, ht.named v hv]
  rfl

theorem Normal.settled (ht : Normal limit t) : (vacant limit).Settled t :=
  ⟨ht.free, ht.whole, ht.canonical⟩

theorem Normal.detached (ht : Normal limit t) : t.detached = t :=
  Ty.detached_of_named t ht.named

theorem normal_atomic (limit : Int64) (kind : Kind) : Normal limit (.atomic kind) :=
  ⟨nofun, Ty.whole_atomic kind, canonical_atomic _ kind⟩

theorem normal_joined (h : ∀ t ∈ ts, Normal limit t) : Normal limit ((vacant limit).joined ts) := by
  have hs := Settled.joined fun t ht ↦ (h t ht).settled
  refine ⟨fun v hv ↦ ?_, hs.whole, hs.canonical⟩
  have hf : (vacant limit).Free (.union ts) := free_union.2 fun t ht ↦ (h t ht).free
  obtain ⟨t, ht, hvt⟩ := Ty.mem_varsEach.1 ((joinTo_ample hf.founded).1.vars hv)
  exact (h t ht).named v hvt

theorem joined_of_normal (h : ∀ t ∈ ts, Normal limit t) :
    (vacant limit).joined ts = Ty.ofAlternatives ((vacant limit).joinParts ts) :=
  joined_eq_ofAlternatives (fun t ht ↦ (h t ht).settled.sound) fun t ht ↦ (h t ht).canonical

theorem normal_met (h : ∀ t ∈ ts, Normal limit t) : Normal limit ((vacant limit).met ts) := by
  have hs := Settled.met fun t ht ↦ (h t ht).settled
  refine ⟨fun v hv ↦ ?_, hs.whole, hs.canonical⟩
  have hf : (vacant limit).Free (.inter ts) := free_inter.2 fun t ht ↦ (h t ht).free
  obtain ⟨t, ht, hvt⟩ := Ty.mem_varsEach.1 ((meetTo_ample hf.founded).1.vars hv)
  exact (h t ht).named v hvt

theorem Normal.same_iff (hs : Normal limit s) (ht : Normal limit t) :
    (vacant limit).same s t = true ↔ s = t := by
  rw [Env.same_iff hs.free ht.free, hs.detached, ht.detached]

end Env

end TypeAlgebra
