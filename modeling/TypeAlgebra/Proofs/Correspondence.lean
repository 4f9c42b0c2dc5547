import TypeAlgebra.Proofs.Regrouping

namespace TypeAlgebra

structure Matched {α β : Type} (R : α → β → Prop) (as : List α) (bs : List β) : Prop where
  left : ∀ a ∈ as, ∃ b ∈ bs, R a b
  right : ∀ b ∈ bs, ∃ a ∈ as, R a b

namespace Matched

variable {α β : Type} {R : α → β → Prop} {as cs : List α} {bs ds : List β}

theorem flip (h : Matched R as bs) : Matched (fun b a ↦ R a b) bs as :=
  ⟨h.right, h.left⟩

theorem imp {S : α → β → Prop} (h : Matched R as bs) (hi : ∀ a ∈ as, ∀ b ∈ bs, R a b → S a b) :
    Matched S as bs where
  left a ha := by
    obtain ⟨b, hb, hr⟩ := h.left a ha
    exact ⟨b, hb, hi a ha b hb hr⟩
  right b hb := by
    obtain ⟨a, ha, hr⟩ := h.right b hb
    exact ⟨a, ha, hi a ha b hb hr⟩

theorem forall_left {P : α → Prop} (h : Matched R as bs) (hp : ∀ a b, R a b → P a) : ∀ a ∈ as, P a := by
  intro a ha
  obtain ⟨b, -, hab⟩ := h.left a ha
  exact hp a b hab

theorem forall_right {P : β → Prop} (h : Matched R as bs) (hp : ∀ a b, R a b → P b) : ∀ b ∈ bs, P b :=
  h.flip.forall_left fun b a ↦ hp a b

theorem forall_iff {P : α → Prop} {Q : β → Prop} (h : Matched R as bs)
    (hr : ∀ a ∈ as, ∀ b ∈ bs, R a b → (P a ↔ Q b)) : (∀ a ∈ as, P a) ↔ ∀ b ∈ bs, Q b := by
  constructor
  · intro hp b hb
    obtain ⟨a, ha, hab⟩ := h.right b hb
    exact (hr a ha b hb hab).1 (hp a ha)
  · intro hq a ha
    obtain ⟨b, hb, hab⟩ := h.left a ha
    exact (hr a ha b hb hab).2 (hq b hb)

theorem exists_iff {P : α → Prop} {Q : β → Prop} (h : Matched R as bs)
    (hr : ∀ a ∈ as, ∀ b ∈ bs, R a b → (P a ↔ Q b)) : (∃ a ∈ as, P a) ↔ ∃ b ∈ bs, Q b := by
  constructor
  · rintro ⟨a, ha, hp⟩
    obtain ⟨b, hb, hab⟩ := h.left a ha
    exact ⟨b, hb, (hr a ha b hb hab).1 hp⟩
  · rintro ⟨b, hb, hq⟩
    obtain ⟨a, ha, hab⟩ := h.right b hb
    exact ⟨a, ha, (hr a ha b hb hab).2 hq⟩

theorem any_eq {p : α → Bool} {q : β → Bool} (h : Matched R as bs) (hr : ∀ a b, R a b → p a = q b) :
    as.any p = bs.any q := by
  rw [Bool.eq_iff_iff, List.any_eq_true, List.any_eq_true]
  exact h.exists_iff fun a _ b _ hab ↦ by rw [hr a b hab]

/-- What is chosen of two lists matches too, if counterparts are chosen together. -/
theorem restrict {P : α → Prop} {Q : β → Prop} (h : Matched R as bs) (hc : ∀ a, a ∈ cs ↔ a ∈ as ∧ P a)
    (hd : ∀ b, b ∈ ds ↔ b ∈ bs ∧ Q b) (hr : ∀ a ∈ as, ∀ b ∈ bs, R a b → (P a ↔ Q b)) : Matched R cs ds where
  left a hm := by
    obtain ⟨ha, hp⟩ := (hc a).1 hm
    obtain ⟨b, hb, hab⟩ := h.left a ha
    exact ⟨b, (hd b).2 ⟨hb, (hr a ha b hb hab).1 hp⟩, hab⟩
  right b hm := by
    obtain ⟨hb, hq⟩ := (hd b).1 hm
    obtain ⟨a, ha, hab⟩ := h.right b hb
    exact ⟨a, (hc a).2 ⟨ha, (hr a ha b hb hab).2 hq⟩, hab⟩

theorem of_forall₂ (h : List.Forall₂ R as bs) : Matched R as bs := by
  induction h with
  | nil => exact ⟨List.forall_mem_nil _, List.forall_mem_nil _⟩
  | @cons a b as bs hd _ ih =>
    refine ⟨List.forall_mem_cons.2 ⟨⟨b, List.mem_cons_self, hd⟩, fun c hc ↦ ?_⟩,
      List.forall_mem_cons.2 ⟨⟨a, List.mem_cons_self, hd⟩, fun c hc ↦ ?_⟩⟩
    · obtain ⟨d, hd, hcd⟩ := ih.left c hc
      exact ⟨d, List.mem_cons_of_mem b hd, hcd⟩
    · obtain ⟨d, hd, hcd⟩ := ih.right c hc
      exact ⟨d, List.mem_cons_of_mem a hd, hcd⟩

theorem of_perm {es : List β} (h : Matched R as bs) (hp : bs.Perm es) : Matched R as es where
  left a ha := by
    obtain ⟨b, hb, hab⟩ := h.left a ha
    exact ⟨b, hp.mem_iff.1 hb, hab⟩
  right b hb := h.right b (hp.mem_iff.2 hb)

/-- What the elements of two lists consist of is matched, if it is so for each two that are counterparts. -/
theorem collect {γ δ : Type} {S : γ → δ → Prop} {f : α → List γ} {g : β → List δ} {us : List γ} {vs : List δ}
    (h : Matched R as bs) (hu : ∀ u, u ∈ us ↔ ∃ a ∈ as, u ∈ f a) (hv : ∀ v, v ∈ vs ↔ ∃ b ∈ bs, v ∈ g b)
    (hs : ∀ a b, R a b → Matched S (f a) (g b)) : Matched S us vs where
  left u hm := by
    obtain ⟨a, ha, hua⟩ := (hu u).1 hm
    obtain ⟨b, hb, hab⟩ := h.left a ha
    obtain ⟨v, hvb, huv⟩ := (hs a b hab).left u hua
    exact ⟨v, (hv v).2 ⟨b, hb, hvb⟩, huv⟩
  right v hm := by
    obtain ⟨b, hb, hvb⟩ := (hv v).1 hm
    obtain ⟨a, ha, hab⟩ := h.right b hb
    obtain ⟨u, hua, huv⟩ := (hs a b hab).right v hvb
    exact ⟨u, (hu u).2 ⟨a, ha, hua⟩, huv⟩

theorem exists_subset (h : ∀ a ∈ as, ∃ b ∈ bs, R a b) : ∃ es, List.Forall₂ R as es ∧ es ⊆ bs := by
  induction as with
  | nil => exact ⟨[], .nil, List.nil_subset _⟩
  | cons a as ih =>
    obtain ⟨⟨b, hb, hab⟩, has⟩ := List.forall_mem_cons.1 h
    obtain ⟨es, hes, hsub⟩ := ih has
    exact ⟨b :: es, .cons hab hes, List.cons_subset.2 ⟨hb, hsub⟩⟩

/-- Of lists without repetitions, one can be put in the order of the other. -/
theorem exists_perm (h : Matched R as bs) (hu : Relator.BiUnique R) (ha : as.Nodup) (hb : bs.Nodup) :
    ∃ es, List.Forall₂ R as es ∧ es.Perm bs := by
  obtain ⟨es, hes, hsub⟩ := exists_subset h.left
  have hback : bs ⊆ es := by
    intro b hm
    obtain ⟨a, hma, hab⟩ := h.right b hm
    obtain ⟨e, he, hae⟩ := (of_forall₂ hes).left a hma
    exact hu.2 hab hae ▸ he
  have hnodup : es.Nodup := (List.rel_nodup hu hes).1 ha
  exact ⟨es, hes, (List.perm_ext_iff_of_nodup hnodup hb).2 fun b ↦ ⟨@hsub b, @hback b⟩⟩

theorem length_eq (h : Matched R as bs) (hu : Relator.BiUnique R) (ha : as.Nodup) (hb : bs.Nodup) :
    as.length = bs.length := by
  obtain ⟨es, hes, hperm⟩ := h.exists_perm hu ha hb
  exact hes.length_eq.trans hperm.length_eq

/-- The cases in which unions and intersections are made from lists of parts. -/
theorem shape (h : Matched R as bs) (hlen : as.length = bs.length) :
    (as = [] ∧ bs = []) ∨ (∃ a b, as = [a] ∧ bs = [b] ∧ R a b) ∨ (2 ≤ as.length ∧ 2 ≤ bs.length) := by
  rcases as with _ | ⟨a, _ | ⟨c, as⟩⟩
  · exact .inl ⟨rfl, List.length_eq_zero_iff.1 hlen.symm⟩
  · obtain ⟨b, rfl⟩ := List.length_eq_one_iff.1 hlen.symm
    obtain ⟨d, hd, had⟩ := h.left a (List.mem_singleton_self a)
    exact .inr (.inl ⟨a, b, rfl, rfl, List.mem_singleton.1 hd ▸ had⟩)
  · simp only [List.length_cons] at hlen ⊢
    exact .inr (.inr (by omega))

end Matched

namespace Ty

/--
The second type has, at the places of the variables of the first one, variables with names that `N` gives for
theirs. The parts of unions and intersections may stand in another order; functions give the counterpart of each
part, as the relation cannot be used under an existential quantifier in its own rules.
-/
inductive Renames (N : String → String → Prop) : Ty → Ty → Prop
  | atomic (kind : Kind) : Renames N (atomic kind) (atomic kind)
  | var {v w : Var} : N v.name w.name → Renames N (var v) (var w)
  | proc {params params' : List Ty} {result result' : Ty} : List.Forall₂ (Renames N) params params' →
      Renames N result result' → Renames N (proc params result) (proc params' result')
  | empty : Renames N empty empty
  | pred {inner inner' : Ty} : Renames N inner inner' → Renames N (pred inner) (pred inner')
  | union {parts parts' : List Ty} (there back : Ty → Ty) : (∀ p ∈ parts, there p ∈ parts') →
      (∀ p ∈ parts, Renames N p (there p)) → (∀ q ∈ parts', back q ∈ parts) →
      (∀ q ∈ parts', Renames N (back q) q) → Renames N (union parts) (union parts')
  | inter {parts parts' : List Ty} (there back : Ty → Ty) : (∀ p ∈ parts, there p ∈ parts') →
      (∀ p ∈ parts, Renames N p (there p)) → (∀ q ∈ parts', back q ∈ parts) →
      (∀ q ∈ parts', Renames N (back q) q) → Renames N (inter parts) (inter parts')

variable {N : String → String → Prop} {s t : Ty} {parts parts' : List Ty}

theorem result_child {params : List Ty} {result : Ty} : result ∈ (proc params result).children :=
  List.mem_append_right _ (List.mem_singleton_self _)

theorem inner_child {inner : Ty} : inner ∈ (pred inner).children :=
  List.mem_singleton_self _

theorem exists_there {R : Ty → Ty → Prop} (h : ∀ p ∈ parts, ∃ q ∈ parts', R p q) :
    ∃ f : Ty → Ty, (∀ p ∈ parts, f p ∈ parts') ∧ ∀ p ∈ parts, R p (f p) := by
  classical
  have hf (p : Ty) : ∃ q, p ∈ parts → q ∈ parts' ∧ R p q := by
    by_cases hp : p ∈ parts
    · obtain ⟨q, hq, hr⟩ := h p hp
      exact ⟨q, fun _ ↦ ⟨hq, hr⟩⟩
    · exact ⟨p, fun hp' ↦ absurd hp' hp⟩
  choose f hf using hf
  exact ⟨f, fun p hp ↦ (hf p hp).1, fun p hp ↦ (hf p hp).2⟩

theorem renames_union : Renames N (union parts) (union parts') ↔ Matched (Renames N) parts parts' := by
  constructor
  · intro h
    cases h with
    | union f g hf hfr hg hgr =>
      exact ⟨fun p hp ↦ ⟨f p, hf p hp, hfr p hp⟩, fun q hq ↦ ⟨g q, hg q hq, hgr q hq⟩⟩
  · intro h
    obtain ⟨f, hf, hfr⟩ := exists_there h.left
    obtain ⟨g, hg, hgr⟩ := exists_there h.right
    exact .union f g hf hfr hg hgr

theorem renames_inter : Renames N (inter parts) (inter parts') ↔ Matched (Renames N) parts parts' := by
  constructor
  · intro h
    cases h with
    | inter f g hf hfr hg hgr =>
      exact ⟨fun p hp ↦ ⟨f p, hf p hp, hfr p hp⟩, fun q hq ↦ ⟨g q, hg q hq, hgr q hq⟩⟩
  · intro h
    obtain ⟨f, hf, hfr⟩ := exists_there h.left
    obtain ⟨g, hg, hgr⟩ := exists_there h.right
    exact .inter f g hf hfr hg hgr

theorem forall₂_flip {R S : Ty → Ty → Prop} {ss ts : List Ty} (h : List.Forall₂ R ss ts)
    (hr : ∀ s ∈ ss, ∀ t ∈ ts, R s t → S t s) : List.Forall₂ S ts ss := by
  induction h with
  | nil => exact .nil
  | cons hd _ ih =>
    refine .cons (hr _ List.mem_cons_self _ List.mem_cons_self hd) (ih fun s hs t ht ↦ ?_)
    exact hr s (List.mem_cons_of_mem _ hs) t (List.mem_cons_of_mem _ ht)

theorem Renames.flip (h : Renames N s t) : Renames (fun n m ↦ N m n) t s := by
  induction s using induction_children generalizing t with
  | step s ih =>
    cases h with
    | atomic kind => exact .atomic kind
    | var hn => exact .var hn
    | proc hp hr =>
      exact .proc (forall₂_flip hp fun p hp q _ ↦ ih p (List.mem_append_left _ hp)) (ih _ result_child hr)
    | empty => exact .empty
    | pred hi => exact .pred (ih _ inner_child hi)
    | union there back hf hfr hg hgr =>
      exact .union back there hg (fun q hq ↦ ih _ (hg q hq) (hgr q hq)) hf fun p hp ↦ ih p hp (hfr p hp)
    | inter there back hf hfr hg hgr =>
      exact .inter back there hg (fun q hq ↦ ih _ (hg q hq) (hgr q hq)) hf fun p hp ↦ ih p hp (hfr p hp)

theorem Renames.isUnion (h : Renames N s t) : s.isUnion = t.isUnion := by
  cases h <;> rfl

theorem Renames.isInter (h : Renames N s t) : s.isInter = t.isInter := by
  cases h <;> rfl

theorem Renames.isTuple (h : Renames N s t) : s.isTuple = t.isTuple := by
  cases h <;> rfl

theorem Renames.isAny (h : Renames N s t) : s.isAny = t.isAny := by
  cases h <;> rfl

theorem Renames.isNever (h : Renames N s t) : s.isNever = t.isNever := by
  cases h <;> rfl

theorem ofAlternatives_any (h : parts.any isAny = true) : ofAlternatives parts = any :=
  if_pos h

end Ty

namespace Env

structure Corresponds (limit : Int64) (N : String → String → Prop) (s t : Ty) : Prop where
  left : Spelled limit s
  right : Spelled limit t
  renames : Ty.Renames N s t

variable {limit : Int64} {N : String → String → Prop} {s s' t t' : Ty} {parts parts' ts ts' cs : List Ty}

theorem Corresponds.isUnion (h : Corresponds limit N s t) : s.isUnion = t.isUnion :=
  h.renames.isUnion

theorem Corresponds.isInter (h : Corresponds limit N s t) : s.isInter = t.isInter :=
  h.renames.isInter

theorem Corresponds.isTuple (h : Corresponds limit N s t) : s.isTuple = t.isTuple :=
  h.renames.isTuple

theorem Corresponds.isAny (h : Corresponds limit N s t) : s.isAny = t.isAny :=
  h.renames.isAny

theorem Corresponds.isNever (h : Corresponds limit N s t) : s.isNever = t.isNever :=
  h.renames.isNever

theorem Corresponds.child (h : Corresponds limit N s t) (hs : s' ∈ s.children) (ht : t' ∈ t.children)
    (hr : Ty.Renames N s' t') : Corresponds limit N s' t' :=
  ⟨h.left.child hs, h.right.child ht, hr⟩

theorem Corresponds.union_parts (h : Corresponds limit N (.union parts) (.union parts')) :
    Matched (Corresponds limit N) parts parts' :=
  (Ty.renames_union.1 h.renames).imp fun _ hp _ hq ↦ h.child hp hq

theorem Corresponds.inter_parts (h : Corresponds limit N (.inter parts) (.inter parts')) :
    Matched (Corresponds limit N) parts parts' :=
  (Ty.renames_inter.1 h.renames).imp fun _ hp _ hq ↦ h.child hp hq

theorem Corresponds.union_left (h : Corresponds limit N (.union parts) t) :
    ∃ parts', t = .union parts' ∧ Matched (Corresponds limit N) parts parts' := by
  have hr := h.renames
  cases hr
  exact ⟨_, rfl, h.union_parts⟩

theorem Corresponds.inter_left (h : Corresponds limit N (.inter parts) t) :
    ∃ parts', t = .inter parts' ∧ Matched (Corresponds limit N) parts parts' := by
  have hr := h.renames
  cases hr
  exact ⟨_, rfl, h.inter_parts⟩

theorem Corresponds.flip (h : Corresponds limit N s t) : Corresponds limit (fun n m ↦ N m n) t s :=
  ⟨h.right, h.left, h.renames.flip⟩

/-- Sifted lists of the same types are the same. -/
theorem Sifted.ext (hl : limit ≤ 0) (hs : ∀ p ∈ parts, Spelled limit p) (hs' : ∀ p ∈ parts', Spelled limit p)
    (h : (vacant limit).Sifted parts) (h' : (vacant limit).Sifted parts')
    (hm : ∀ p, p ∈ parts ↔ p ∈ parts') : parts = parts' :=
  Sifted.eq hs hs' h h' (fun p hp ↦ ⟨p, (hm p).1 hp, below_refl (hs p hp).normal⟩)
    (fun p hp ↦ ⟨p, (hm p).2 hp, below_refl (hs' p hp).normal⟩)
    fun p hp q hq ↦ below_antisymm hl (hs p hp) (hs' q hq)

/-- A type is renamed in one way only. -/
theorem Corresponds.right_unique (hl : limit ≤ 0) (hN : Relator.RightUnique N) (h : Corresponds limit N s t)
    (h' : Corresponds limit N s t') : t = t' := by
  induction s using Ty.induction_children generalizing t t' with
  | step s ih =>
    have mem_of_mem {parts ps qs : List Ty} (hc : ∀ p ∈ parts, p ∈ s.children)
        (hp : Matched (Corresponds limit N) parts ps) (hq : Matched (Corresponds limit N) parts qs) :
        ∀ p ∈ ps, p ∈ qs := by
      intro p hm
      obtain ⟨a, ha, hap⟩ := hp.right p hm
      obtain ⟨q, hqm, haq⟩ := hq.left a ha
      exact ih a (hc a ha) hap haq ▸ hqm
    have hr := h.renames
    have hr' := h'.renames
    cases hr with
    | atomic kind =>
      cases hr'
      rfl
    | @var v w hn =>
      cases hr' with
      | @var _ w' hn' =>
        have hw := h.right.normal.named w (List.mem_singleton_self w)
        have hw' := h'.right.normal.named w' (List.mem_singleton_self w')
        cases w
        cases w'
        cases hw
        cases hw'
        exact congrArg (fun n ↦ Ty.var ⟨n, none⟩) (hN hn hn')
    | @proc params qs result q hp hq =>
      cases hr' with
      | @proc _ qs' _ q' hp' hq' =>
        have hparams : List.Forall₂ (· = ·) qs qs' := forall₂_chain hp.flip hp' fun x hx p hp y hy hpx hpy ↦
          ih p (List.mem_append_left _ hp)
            (h.child (List.mem_append_left _ hp) (List.mem_append_left _ hx) hpx)
            (h'.child (List.mem_append_left _ hp) (List.mem_append_left _ hy) hpy)
        have hresult := ih result Ty.result_child (h.child Ty.result_child Ty.result_child hq)
          (h'.child Ty.result_child Ty.result_child hq')
        rw [List.forall₂_eq_eq_eq] at hparams
        rw [hparams, hresult]
    | empty =>
      cases hr'
      rfl
    | pred hq =>
      cases hr' with
      | pred hq' =>
        exact congrArg Ty.pred (ih _ Ty.inner_child (h.child Ty.inner_child Ty.inner_child hq)
          (h'.child Ty.inner_child Ty.inner_child hq'))
    | union =>
      cases hr' with
      | union =>
        refine congrArg Ty.union (Sifted.ext hl (fun p hp ↦ h.right.child hp) (fun p hp ↦ h'.right.child hp)
          h.right.normal.unionParts_sifted h'.right.normal.unionParts_sifted fun p ↦ ?_)
        exact ⟨mem_of_mem (fun _ hp ↦ hp) h.union_parts h'.union_parts p,
          mem_of_mem (fun _ hp ↦ hp) h'.union_parts h.union_parts p⟩
    | inter =>
      cases hr' with
      | inter =>
        refine congrArg Ty.inter (Sifted.ext hl (fun p hp ↦ h.right.child hp) (fun p hp ↦ h'.right.child hp)
          h.right.normal.interParts_sifted h'.right.normal.interParts_sifted fun p ↦ ?_)
        exact ⟨mem_of_mem (fun _ hp ↦ hp) h.inter_parts h'.inter_parts p,
          mem_of_mem (fun _ hp ↦ hp) h'.inter_parts h.inter_parts p⟩

theorem biUnique_flip (hN : Relator.BiUnique N) : Relator.BiUnique fun n m ↦ N m n :=
  ⟨fun _ _ _ h h' ↦ hN.2 h h', fun _ _ _ h h' ↦ hN.1 h h'⟩

section Order

variable (hl : limit ≤ 0) (hN : Relator.BiUnique N)

include hl hN

theorem corresponds_biUnique : Relator.BiUnique (Corresponds limit N) :=
  ⟨fun _ _ _ h h' ↦ h.flip.right_unique hl (biUnique_flip hN).2 h'.flip,
    fun _ _ _ h h' ↦ h.right_unique hl hN.2 h'⟩

omit hl hN in
/-- The rules for procedures hold of corresponding types, if the components of such types are related alike. -/
theorem Componentwise.corresponds (hs : Corresponds limit N s s') (ht : Corresponds limit N t t')
    (h : Componentwise limit s t)
    (step : ∀ a ∈ s.children, ∀ b ∈ t.children, ∀ a' b', Corresponds limit N a a' → Corresponds limit N b b' →
      (Below limit a b → Below limit a' b') ∧ (Below limit b a → Below limit b' a')) :
    Componentwise limit s' t' := by
  have hrs := hs.renames
  have hrt := ht.renames
  cases h with
  | @proc as bs _ _ hp hr =>
    cases hrs with
    | @proc _ as' _ _ has har =>
      cases hrt with
      | @proc _ bs' _ _ hbs hbr =>
        have hmid : List.Forall₂ (fun a' b ↦ ∀ b', Corresponds limit N b b' → Below limit b' a') as' bs :=
          forall₂_chain has.flip hp fun a' ha' a ha b hb haa' hba b' hbb' ↦
            (step a (List.mem_append_left _ ha) b (List.mem_append_left _ hb) a' b'
              (hs.child (List.mem_append_left _ ha) (List.mem_append_left _ ha') haa') hbb').2 hba
        refine .proc (forall₂_chain hmid hbs fun a' _ b hb b' hb' hab hbb' ↦ ?_) ?_
        · exact hab b' (ht.child (List.mem_append_left _ hb) (List.mem_append_left _ hb') hbb')
        · exact (step _ Ty.result_child _ Ty.result_child _ _
            (hs.child Ty.result_child Ty.result_child har)
            (ht.child Ty.result_child Ty.result_child hbr)).1 hr
  | tuple => exact hs.left.readable.writable.elim

/-- Types are below each other if the types are that they correspond to. -/
theorem Corresponds.below (hs : Corresponds limit N s s') (ht : Corresponds limit N t t')
    (h : Below limit s t) : Below limit s' t' := by
  have hunique := corresponds_biUnique hl hN
  induction hn : s.size + t.size using Nat.strongRecOn generalizing s s' t t' with
  | ind n ih =>
    have step {a a' b b' : Ty} (hab : a.size + b.size < s.size + t.size) (ha : Corresponds limit N a a')
        (hb : Corresponds limit N b b') : Below limit a b → Below limit a' b' :=
      fun h ↦ ih _ (hn ▸ hab) ha hb h rfl
    have all_parts {parts parts' : List Ty} (hm : Matched (Corresponds limit N) parts parts')
        (hc : ∀ p ∈ parts, p ∈ s.children) (h : ∀ p ∈ parts, Below limit p t) :
        ∀ q ∈ parts', Below limit q t' := by
      intro q hq
      obtain ⟨p, hp, hpq⟩ := hm.right q hq
      have hsize := Ty.size_lt_of_child (hc p hp)
      exact step (by omega) hpq ht (h p hp)
    have some_part {parts parts' : List Ty} (hm : Matched (Corresponds limit N) parts parts')
        (hc : ∀ p ∈ parts, p ∈ t.children) (h : s.isTuple = false ∧ ∃ p ∈ parts, Below limit s p) :
        s'.isTuple = false ∧ ∃ q ∈ parts', Below limit s' q := by
      obtain ⟨htup, p, hp, hsp⟩ := h
      obtain ⟨q, hq, hpq⟩ := hm.left p hp
      have hsize := Ty.size_lt_of_child (hc p hp)
      exact ⟨hs.isTuple ▸ htup, q, hq, step (by omega) hs hpq hsp⟩
    have hus := hs.isUnion
    have hut := ht.isUnion
    have his := hs.isInter
    have hit := ht.isInter
    -- The rules are tried in the order in which the relation tries them.
    cases hu : s.isUnion
    case true =>
      cases s <;> cases hu
      obtain ⟨parts', rfl, hparts⟩ := hs.union_left
      rcases (union_below hs.left.normal ht.left.normal).1 h with rfl | h
      · obtain rfl := hunique.2 hs ht
        exact below_refl hs.right.normal
      · exact (union_below hs.right.normal ht.right.normal).2 (.inr (all_parts hparts (fun _ hp ↦ hp) h))
    cases hu' : t.isUnion
    case true =>
      cases t <;> cases hu'
      obtain ⟨parts', rfl, hparts⟩ := ht.union_left
      have hpart := (below_union hs.left.normal ht.left.normal hu).1 h
      exact (below_union hs.right.normal ht.right.normal (hus ▸ hu)).2
        (some_part hparts (fun _ hp ↦ hp) hpart)
    cases hi : s.isInter
    case true =>
      cases s <;> cases hi
      obtain ⟨parts', rfl, hparts⟩ := hs.inter_left
      rcases (inter_below hs.left.normal ht.left.normal hu').1 h with rfl | h
      · obtain rfl := hunique.2 hs ht
        exact below_refl hs.right.normal
      · exact (inter_below hs.right.normal ht.right.normal (hut ▸ hu')).2
          (.inr (all_parts hparts (fun _ hp ↦ hp) h))
    cases hi' : t.isInter
    case true =>
      cases t <;> cases hi'
      obtain ⟨parts', rfl, hparts⟩ := ht.inter_left
      have hpart := (below_inter hs.left.normal ht.left.normal hu hi).1 h
      exact (below_inter hs.right.normal ht.right.normal (hus ▸ hu) (his ▸ hi)).2
        (some_part hparts (fun _ hp ↦ hp) hpart)
    rw [simple_below hs.right.normal ht.right.normal (hus ▸ hu) (his ▸ hi) (hut ▸ hu') (hit ▸ hi')]
    rcases (simple_below hs.left.normal ht.left.normal hu hi hu' hi').1 h with rfl | rfl | rfl | h
    · exact .inl (hunique.2 hs ht)
    · exact .inr (.inl (Ty.isAny_iff.1 (ht.isAny ▸ rfl)))
    · exact .inr (.inr (.inl (Ty.isNever_iff.1 (hs.isNever ▸ rfl))))
    · refine .inr (.inr (.inr (h.corresponds hs ht fun a ha b hb a' b' haa' hbb' ↦ ?_)))
      have hsa := Ty.size_lt_of_child ha
      have hsb := Ty.size_lt_of_child hb
      exact ⟨step (by omega) haa' hbb', step (by omega) hbb' haa'⟩

theorem Corresponds.below_iff (hs : Corresponds limit N s s') (ht : Corresponds limit N t t') :
    Below limit s t ↔ Below limit s' t' :=
  ⟨hs.below hl hN ht, hs.flip.below hl (biUnique_flip hN) ht.flip⟩

end Order

theorem Corresponds.alternatives (h : Corresponds limit N t t') :
    Matched (Corresponds limit N) t.alternatives t'.alternatives := by
  cases hu : t.isUnion
  · rw [Ty.alternatives_of_not_union hu, Ty.alternatives_of_not_union (h.isUnion ▸ hu)]
    exact .of_forall₂ (.cons h .nil)
  · cases t <;> cases hu
    obtain ⟨parts', rfl, hparts⟩ := h.union_left
    rwa [h.left.normal.alternatives_union, h.right.normal.alternatives_union]

theorem Corresponds.factors (h : Corresponds limit N t t') :
    Matched (Corresponds limit N) t.factors t'.factors := by
  cases hi : t.isInter
  · rw [Ty.factors_of_not_inter hi, Ty.factors_of_not_inter (h.isInter ▸ hi)]
    exact .of_forall₂ (.cons h .nil)
  · cases t <;> cases hi
    obtain ⟨parts', rfl, hparts⟩ := h.inter_left
    rwa [h.left.normal.factors_inter, h.right.normal.factors_inter]

theorem matched_alternativesEach (h : Matched (Corresponds limit N) ts ts') :
    Matched (Corresponds limit N) (Ty.alternativesEach ts) (Ty.alternativesEach ts') :=
  h.collect (fun _ ↦ Ty.mem_alternativesEach) (fun _ ↦ Ty.mem_alternativesEach)
    fun _ _ ↦ Corresponds.alternatives

theorem matched_meetFactors (h : Matched (Corresponds limit N) ts ts') :
    Matched (Corresponds limit N) (meetFactors ts) (meetFactors ts') := by
  have hfactors : Matched (Corresponds limit N) (Ty.factorsEach ts) (Ty.factorsEach ts') :=
    h.collect (fun _ ↦ Ty.mem_factorsEach) (fun _ ↦ Ty.mem_factorsEach) fun _ _ ↦ Corresponds.factors
  exact hfactors.restrict (fun _ ↦ mem_meetFactors) (fun _ ↦ mem_meetFactors) fun _ _ _ _ h ↦ by rw [h.isAny]

theorem matched_flip (h : Matched (Corresponds limit N) ts ts') :
    Matched (Corresponds limit fun n m ↦ N m n) ts' ts :=
  h.flip.imp fun _ _ _ _ ↦ Corresponds.flip

/-- The parts that are left of a union are the largest ones. -/
theorem mem_joinParts_iff (hl : limit ≤ 0) (ht : ∀ t ∈ ts, Spelled limit t) :
    s ∈ (vacant limit).joinParts ts ↔ s ∈ Ty.alternativesEach ts ∧ s.isNever = false ∧
      ∀ q ∈ Ty.alternativesEach ts, Below limit s q → q = s := by
  have ha := alternativesEach_of_child Spelled.child ht
  have hn : ∀ q ∈ Ty.alternativesEach ts, Normal limit q := fun q hq ↦ (ha q hq).normal
  have hsift := joinParts_sifted fun t hm ↦ (ht t hm).normal.settled.sound
  constructor
  · intro hs
    obtain ⟨hsa, hsn⟩ := mem_joinParts hs
    refine ⟨hsa, hsn, fun q hq hsq ↦ ?_⟩
    have hqn : q.isNever = false := by
      refine Bool.eq_false_of_not_eq_true fun hqn ↦ ?_
      rw [Ty.isNever_iff.1 hqn] at hsq
      rw [eq_never_of_below (hn s hsa) hsq] at hsn
      cases hsn
    obtain ⟨k, hk, hqk⟩ := joinParts_cover hn q hq hqn
    have hka := (mem_joinParts hk).1
    obtain rfl := hsift.eq_of_below hs hk (below_trans (hn s hsa) (hn q hq) (hn k hka) hsq hqk)
    exact below_antisymm hl (ha q hq) (ha s hsa) hqk hsq
  · rintro ⟨hsa, hsn, hmax⟩
    obtain ⟨k, hk, hsk⟩ := joinParts_cover hn s hsa hsn
    rwa [← hmax k (mem_joinParts hk).1 hsk]

theorem joinParts_nodup (ht : ∀ t ∈ ts, Spelled limit t) : ((vacant limit).joinParts ts).Nodup :=
  Sifted.nodup (fun _ hp ↦ (joinParts_plain ht _ hp).1)
    (joinParts_sifted fun t hm ↦ (ht t hm).normal.settled.sound)

section Canonical

variable (hl : limit ≤ 0) (hN : Relator.BiUnique N)

include hl hN

theorem matched_joinParts (ht : ∀ t ∈ ts, Spelled limit t) (ht' : ∀ t ∈ ts', Spelled limit t)
    (h : Matched (Corresponds limit N) (Ty.alternativesEach ts) (Ty.alternativesEach ts')) :
    Matched (Corresponds limit N) ((vacant limit).joinParts ts) ((vacant limit).joinParts ts') := by
  refine h.restrict (fun _ ↦ mem_joinParts_iff hl ht) (fun _ ↦ mem_joinParts_iff hl ht') fun a _ b _ hab ↦ ?_
  rw [hab.isNever]
  refine and_congr_right fun _ ↦ h.forall_iff fun p _ q _ hpq ↦ imp_congr (hab.below_iff hl hN hpq) ?_
  exact Relator.rel_eq (corresponds_biUnique hl hN) hpq hab

theorem matched_meetParts (ht : ∀ t ∈ ts, Spelled limit t) (ht' : ∀ t ∈ ts', Spelled limit t)
    (h : Matched (Corresponds limit N) ts ts') :
    Matched (Corresponds limit N) ((vacant limit).meetParts ts) ((vacant limit).meetParts ts') := by
  have hf := matched_meetFactors h
  refine hf.restrict (fun _ ↦ mem_meetParts_iff hl ht) (fun _ ↦ mem_meetParts_iff hl ht') fun a _ b _ hab ↦ ?_
  refine hf.forall_iff fun p _ q _ hpq ↦ imp_congr (hpq.below_iff hl hN hab) ?_
  exact Relator.rel_eq (corresponds_biUnique hl hN) hpq hab

theorem renames_ofAlternatives (h : Matched (Corresponds limit N) parts parts') (hd : parts.Nodup)
    (hd' : parts'.Nodup) : Ty.Renames N (Ty.ofAlternatives parts) (Ty.ofAlternatives parts') := by
  have hlen := h.length_eq (corresponds_biUnique hl hN) hd hd'
  have hany : parts.any Ty.isAny = parts'.any Ty.isAny := h.any_eq fun _ _ h ↦ h.isAny
  cases ha : parts.any Ty.isAny
  · rcases h.shape hlen with ⟨rfl, rfl⟩ | ⟨p, q, rfl, rfl, hpq⟩ | ⟨h₂, h₂'⟩
    · exact .atomic _
    · rw [Ty.ofAlternatives, Ty.ofAlternatives, ← hany, ha]
      exact hpq.renames
    · rw [Ty.ofAlternatives_several ha h₂, Ty.ofAlternatives_several (hany ▸ ha) h₂']
      exact Ty.renames_union.2 (h.imp fun _ _ _ _ h ↦ h.renames)
  · rw [Ty.ofAlternatives_any ha, Ty.ofAlternatives_any (hany ▸ ha)]
    exact .atomic _

theorem renames_ofFactors (h : Matched (Corresponds limit N) parts parts') (hd : parts.Nodup)
    (hd' : parts'.Nodup) : Ty.Renames N (Ty.ofFactors parts) (Ty.ofFactors parts') := by
  have hlen := h.length_eq (corresponds_biUnique hl hN) hd hd'
  rcases h.shape hlen with ⟨rfl, rfl⟩ | ⟨p, q, rfl, rfl, hpq⟩ | ⟨h₂, h₂'⟩
  · exact .atomic _
  · exact hpq.renames
  · rw [Ty.ofFactors_several h₂, Ty.ofFactors_several h₂']
    exact Ty.renames_inter.2 (h.imp fun _ _ _ _ h ↦ h.renames)

/-- Unions of corresponding alternatives correspond. -/
theorem corresponds_joined (ht : ∀ t ∈ ts, Spelled limit t) (ht' : ∀ t ∈ ts', Spelled limit t)
    (h : Matched (Corresponds limit N) (Ty.alternativesEach ts) (Ty.alternativesEach ts')) :
    Corresponds limit N ((vacant limit).joined ts) ((vacant limit).joined ts') := by
  refine ⟨spelled_joined ht, spelled_joined ht', ?_⟩
  rw [joined_of_normal fun t hm ↦ (ht t hm).normal, joined_of_normal fun t hm ↦ (ht' t hm).normal]
  exact renames_ofAlternatives hl hN (matched_joinParts hl hN ht ht' h) (joinParts_nodup ht)
    (joinParts_nodup ht')

omit hl hN in
theorem any_never_meetFactors (h : Matched (Corresponds limit N) ts ts') :
    (meetFactors ts).any Ty.isNever = (meetFactors ts').any Ty.isNever :=
  (matched_meetFactors h).any_eq fun _ _ h ↦ h.isNever

/-- Intersections of corresponding types correspond where they are not distributed. -/
theorem renames_met_undistributed (ht : ∀ t ∈ ts, Spelled limit t) (ht' : ∀ t ∈ ts', Spelled limit t)
    (h : Matched (Corresponds limit N) ts ts') (hn : (meetFactors ts).any Ty.isNever = false)
    (hu : (vacant limit).Undistributed ts) (hu' : (vacant limit).Undistributed ts') :
    Ty.Renames N ((vacant limit).met ts) ((vacant limit).met ts') := by
  rw [met_undistributed (fun t hm ↦ (ht t hm).normal) hn hu,
    met_undistributed (fun t hm ↦ (ht' t hm).normal) (any_never_meetFactors h ▸ hn) hu']
  exact renames_ofFactors hl hN (matched_meetParts hl hN ht ht' h) (meetParts_nodup ht) (meetParts_nodup ht')

omit hl hN in
theorem Picks.forall₂ (hp : List.Forall₂ (Corresponds limit N) parts parts') (h : Picks cs parts) :
    ∃ ds, Picks ds parts' ∧ List.Forall₂ (Corresponds limit N) cs ds := by
  induction h generalizing parts' with
  | nil =>
    cases hp
    exact ⟨[], .nil, .nil⟩
  | cons hc _ ih =>
    cases hp with
    | cons hpq hrest =>
      obtain ⟨ds, hds, hcs⟩ := ih hrest
      obtain ⟨d, hd, hcd⟩ := hpq.alternatives.left _ hc
      exact ⟨d :: ds, .cons hd hds, .cons hcd hcs⟩

/-- To a choice from the parts there is one of corresponding alternatives from the corresponding parts. -/
theorem Picks.exists_matched (hp : Matched (Corresponds limit N) parts parts') (hd : parts.Nodup)
    (hd' : parts'.Nodup) (h : Picks cs parts) :
    ∃ ds, Picks ds parts' ∧ Matched (Corresponds limit N) cs ds := by
  obtain ⟨qs, hqs, hperm⟩ := hp.exists_perm (corresponds_biUnique hl hN) hd hd'
  obtain ⟨es, hes, hcs⟩ := h.forall₂ hqs
  obtain ⟨ds, hds, hed⟩ := hes.of_perm hperm
  exact ⟨ds, hds, (Matched.of_forall₂ hcs).of_perm hed⟩

/-- An alternative comes from a choice of parts, and the corresponding choice gives one that corresponds to it. -/
theorem exists_disjunct (hr : Remnants limit parts) (hr' : Remnants limit parts')
    (hp : Matched (Corresponds limit N) parts parts') (hd : parts.Nodup) (hd' : parts'.Nodup) :
    ∀ s ∈ Ty.alternativesEach ((disjuncts parts).map (vacant limit).met),
      ∃ t ∈ Ty.alternativesEach ((disjuncts parts').map (vacant limit).met), Corresponds limit N s t := by
  intro s hs
  obtain ⟨cs, hcs, rfl⟩ := (hr.mem_disjuncts hl).1 hs
  obtain ⟨ds, hds, hcd⟩ := hcs.exists_matched hl hN hp hd hd'
  obtain ⟨hconj, -⟩ := hr.conjuncts hl hcs
  obtain ⟨hconj', -⟩ := hr'.conjuncts hl hds
  have hn : (meetFactors cs).any Ty.isNever = false :=
    List.any_eq_false.2 fun p hp ↦ Bool.not_eq_true _ ▸ (hconj.plain p hp).2.2
  refine ⟨_, (hr'.mem_disjuncts hl).2 ⟨ds, hds, rfl⟩, spelled_met hconj.spelled, spelled_met hconj'.spelled, ?_⟩
  exact renames_met_undistributed hl hN hconj.spelled hconj'.spelled hcd hn hconj.undistributed
    hconj'.undistributed

/-- Corresponding parts are distributed into corresponding alternatives. -/
theorem matched_disjuncts (hr : Remnants limit parts) (hr' : Remnants limit parts')
    (hp : Matched (Corresponds limit N) parts parts') (hd : parts.Nodup) (hd' : parts'.Nodup) :
    Matched (Corresponds limit N) (Ty.alternativesEach ((disjuncts parts).map (vacant limit).met))
      (Ty.alternativesEach ((disjuncts parts').map (vacant limit).met)) where
  left := exists_disjunct hl hN hr hr' hp hd hd'
  right t ht := by
    obtain ⟨s, hs, hts⟩ := exists_disjunct hl (biUnique_flip hN) hr' hr (matched_flip hp) hd' hd t ht
    exact ⟨s, hs, hts.flip⟩

/-- Intersections of corresponding types correspond. -/
theorem corresponds_met (h : Matched (Corresponds limit N) ts ts') :
    Corresponds limit N ((vacant limit).met ts) ((vacant limit).met ts') := by
  have ht : ∀ t ∈ ts, Spelled limit t := h.forall_left fun _ _ h ↦ h.left
  have ht' : ∀ t ∈ ts', Spelled limit t := h.forall_right fun _ _ h ↦ h.right
  refine ⟨spelled_met ht, spelled_met ht', ?_⟩
  have hnever := any_never_meetFactors h
  have hparts := matched_meetParts hl hN ht ht' h
  have hd := meetParts_nodup ht
  have hd' := meetParts_nodup ht'
  have hlen := hparts.length_eq (corresponds_biUnique hl hN) hd hd'
  cases hn : (meetFactors ts).any Ty.isNever
  · by_cases h₂ : 2 ≤ ((vacant limit).meetParts ts).length
    · have hr := remnants_meetParts ht hn (List.ne_nil_of_length_pos (by omega))
      have hr' := remnants_meetParts ht' (hnever ▸ hn) (List.ne_nil_of_length_pos (by omega))
      rw [met_eq_joined hl (fun t hm ↦ (ht t hm).normal) hn h₂,
        met_eq_joined hl (fun t hm ↦ (ht' t hm).normal) (hnever ▸ hn) (hlen ▸ h₂)]
      exact (corresponds_joined hl hN (hr.spelled_disjuncts hl) (hr'.spelled_disjuncts hl)
        (matched_disjuncts hl hN hr hr' hparts hd hd')).renames
    · refine renames_met_undistributed hl hN ht ht' h hn (.inl ?_) (.inl ?_)
      · omega
      · omega
  · rw [met_eq (free_inter.2 fun t hm ↦ (ht t hm).normal.free).founded,
      met_eq (free_inter.2 fun t hm ↦ (ht' t hm).normal.free).founded, ← hnever, hn]
    exact .atomic _

end Canonical

end Env

end TypeAlgebra
