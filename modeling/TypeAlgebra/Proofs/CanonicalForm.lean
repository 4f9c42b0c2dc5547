import TypeAlgebra.Proofs.Sound

namespace TypeAlgebra

namespace Env

variable {env : Env} {s t : Ty} {ts parts : List Ty}

def Unrelated (env : Env) (s t : Ty) : Prop :=
  (env.subtype s t).outcome = .ok false ∧ (env.subtype t s).outcome = .ok false

structure UnionParts (env : Env) (parts : List Ty) : Prop where
  several : 2 ≤ parts.length
  plain : ∀ p ∈ parts, p.isUnion = false ∧ p.isNever = false ∧ p.isAny = false
  unrelated : parts.Pairwise env.Unrelated
  sorted : parts.Pairwise fun s t ↦ ∃ o, (env.order s t).outcome = .ok o ∧ o ≠ .gt

/--
What holds of the parts of an intersection in canonical form. Unions are among them only if there is a limit
and they have more choices than it allows.
-/
structure InterParts (env : Env) (parts : List Ty) : Prop where
  several : 2 ≤ parts.length
  plain : ∀ p ∈ parts, p.isInter = false ∧ p.isAny = false ∧ p.isNever = false
  unrelated : parts.Pairwise env.Unrelated
  sorted : parts.Pairwise fun s t ↦
    ∃ o, (env.interOrder (env.depth [s, t]) env.subtype s t).outcome = .ok o ∧ o ≠ .gt
  unlimited : env.limit ≤ 0 → ∀ p ∈ parts, p.isUnion = false
  limited : env.limit > 0 → (∃ p ∈ parts, p.isUnion = true) →
    countChoices env.limit ((parts.filterMap Ty.unionParts?).map fun us ↦ .ofNat us.length) > env.limit

/-- Every union and every intersection in the type has parts as they should be. -/
inductive Canonical (env : Env) : Ty → Prop
  | node {t : Ty} : (∀ s ∈ t.children, env.Canonical s) →
      (∀ parts, t = .union parts → env.UnionParts parts) →
      (∀ parts, t = .inter parts → env.InterParts parts) → env.Canonical t

theorem Canonical.child (ht : env.Canonical t) (h : s ∈ t.children) : env.Canonical s := by
  obtain ⟨hc, -, -⟩ := ht
  exact hc s h

theorem Canonical.unionParts (h : env.Canonical (.union parts)) : env.UnionParts parts := by
  obtain ⟨-, hu, -⟩ := h
  exact hu parts rfl

theorem Canonical.interParts (h : env.Canonical (.inter parts)) : env.InterParts parts := by
  obtain ⟨-, -, hi⟩ := h
  exact hi parts rfl

theorem canonical_atomic (env : Env) (kind : Kind) : env.Canonical (.atomic kind) :=
  .node nofun nofun nofun

structure Sifted (env : Env) (parts : List Ty) : Prop where
  apart : parts.Pairwise (Apart env.below)
  ascending : Ascending (compareOn env.key) parts

theorem eq_or_apart (h : parts.Pairwise (Apart env.below)) (hs : s ∈ parts) (ht : t ∈ parts) :
    s = t ∨ Apart env.below s t := by
  by_cases he : s = t
  · exact .inl he
  · exact .inr (h.forall hs ht he)

/-- Sorting sifts what has been pruned. -/
theorem sortedBy_sifted {general : Ordering} (hs : ∀ p ∈ parts, env.Sound p)
    (ha : parts.Pairwise (Apart env.below)) :
    env.Sifted (sortedBy (env.ordering general) parts) := by
  have he : sortedBy (env.ordering general) parts = sortedBy (compareOn env.key) parts :=
    sortedBy_congr fun a hma b hmb ↦
      ordering_eq_compare (hs a hma) (hs b hmb) (eq_or_apart ha hma hmb) general
  rw [he]
  refine ⟨?_, sortedBy_ascending parts⟩
  exact ((sortedBy_perm _ parts).pairwise_iff (Std.Symm.symm _ _)).2 ha

theorem sortedBy_of_sifted {general : Ordering} (hs : ∀ p ∈ parts, env.Sound p)
    (h : env.Sifted parts) : sortedBy (env.ordering general) parts = parts := by
  have he : sortedBy (env.ordering general) parts = sortedBy (compareOn env.key) parts :=
    sortedBy_congr fun a hma b hmb ↦
      ordering_eq_compare (hs a hma) (hs b hmb) (eq_or_apart h.apart hma hmb) general
  rw [he, sortedBy_of_ascending h.ascending]

theorem unrelated_iff_apart (hs : env.Sound s) (ht : env.Sound t) :
    env.Unrelated s t ↔ Apart env.below s t := by
  unfold Unrelated Apart
  rw [subtype_eq hs.toFounded ht.toFounded, subtype_eq ht.toFounded hs.toFounded]
  exact ⟨fun h ↦ ⟨Except.ok.inj h.1, Except.ok.inj h.2⟩,
    fun h ↦ ⟨congrArg Except.ok h.1, congrArg Except.ok h.2⟩⟩

/-- The order of unrelated types, asked in whichever direction, is that of their texts. -/
theorem ordered_iff (hs : env.Sound s) (ht : env.Sound t) (h : Apart env.below s t)
    (general : Ordering) :
    (∃ o, (env.orderBy (env.depth [s, t]) env.subtype general s t).outcome = .ok o ∧ o ≠ .gt) ↔
      (compareOn env.key s t).isLE = true := by
  rw [orderBy_eq hs.toFounded ht.toFounded, ordering_eq_compare hs ht (.inr h), Ordering.isLE_iff_ne_gt]
  exact ⟨fun ⟨_, he, hn⟩ ↦ by cases he; exact hn, fun hn ↦ ⟨_, rfl, hn⟩⟩

theorem pairwise_iff_sifted (hs : ∀ p ∈ parts, env.Sound p) (general : Ordering) :
    parts.Pairwise env.Unrelated ∧ (parts.Pairwise fun s t ↦
      ∃ o, (env.orderBy (env.depth [s, t]) env.subtype general s t).outcome = .ok o ∧ o ≠ .gt) ↔
      env.Sifted parts := by
  have ha : parts.Pairwise env.Unrelated ↔ parts.Pairwise (Apart env.below) :=
    List.Pairwise.iff_of_mem fun hp hq ↦ unrelated_iff_apart (hs _ hp) (hs _ hq)
  rw [ha]
  constructor
  · rintro ⟨ha, ho⟩
    refine ⟨ha, (ha.and ho).imp_of_mem ?_⟩
    exact fun hp hq h ↦ (ordered_iff (hs _ hp) (hs _ hq) h.1 general).1 h.2
  · rintro ⟨ha, ho⟩
    refine ⟨ha, (ha.and ho).imp_of_mem ?_⟩
    exact fun hp hq h ↦ (ordered_iff (hs _ hp) (hs _ hq) h.1 general).2 h.2

theorem unionParts_iff (hs : ∀ p ∈ parts, env.Sound p) :
    env.UnionParts parts ↔ 2 ≤ parts.length ∧
      (∀ p ∈ parts, p.isUnion = false ∧ p.isNever = false ∧ p.isAny = false) ∧ env.Sifted parts := by
  rw [← pairwise_iff_sifted hs .gt]
  exact ⟨fun h ↦ ⟨h.several, h.plain, h.unrelated, h.sorted⟩, fun ⟨h₁, h₂, h₃, h₄⟩ ↦ ⟨h₁, h₂, h₃, h₄⟩⟩

theorem unionsIn_isEmpty : (Ty.unionsIn parts).isEmpty = true ↔ ∀ p ∈ parts, p.isUnion = false := by
  rw [List.isEmpty_iff, List.eq_nil_iff_forall_not_mem]
  constructor
  · intro h p hp
    cases p <;> try rfl
    exact absurd (Ty.mem_unionsIn.2 hp) (h _)
  · intro h us hus
    cases h _ (Ty.mem_unionsIn.1 hus)

theorem keeps_iff :
    env.keeps parts = true ↔
      (env.limit ≤ 0 → ∀ p ∈ parts, p.isUnion = false) ∧
      (env.limit > 0 → (∃ p ∈ parts, p.isUnion = true) →
        countChoices env.limit ((Ty.unionsIn parts).map fun us ↦ .ofNat us.length) > env.limit) := by
  have hex : (∃ p ∈ parts, p.isUnion = true) ↔ ¬(Ty.unionsIn parts).isEmpty = true := by
    rw [unionsIn_isEmpty]
    simp
  rw [hex, ← unionsIn_isEmpty, keeps, exceeds, Bool.or_eq_true, Bool.and_eq_true, decide_eq_true_iff,
    decide_eq_true_iff, ← Int64.not_lt]
  tauto

theorem interParts_iff (hs : ∀ p ∈ parts, env.Sound p) :
    env.InterParts parts ↔ 2 ≤ parts.length ∧
      (∀ p ∈ parts, p.isInter = false ∧ p.isAny = false ∧ p.isNever = false) ∧ env.Sifted parts ∧
      env.keeps parts = true := by
  rw [← pairwise_iff_sifted hs .lt, keeps_iff]
  exact ⟨fun h ↦ ⟨h.several, h.plain, ⟨h.unrelated, h.sorted⟩, h.unlimited, h.limited⟩,
    fun ⟨h₁, h₂, ⟨h₃, h₄⟩, h₅, h₆⟩ ↦ ⟨h₁, h₂, h₃, h₄, h₅, h₆⟩⟩

theorem alternativesEach_of_child {P : Ty → Prop} (hp : ∀ {s t : Ty}, P t → s ∈ t.children → P s)
    (h : ∀ t ∈ ts, P t) : ∀ s ∈ Ty.alternativesEach ts, P s := by
  intro s hs
  obtain ⟨t, ht, hst⟩ := Ty.mem_alternativesEach.1 hs
  exact Ty.alternative_of_child hp (h t ht) hst

theorem factorsEach_of_child {P : Ty → Prop} (hp : ∀ {s t : Ty}, P t → s ∈ t.children → P s)
    (h : ∀ t ∈ ts, P t) : ∀ s ∈ Ty.factorsEach ts, P s := by
  intro s hs
  obtain ⟨t, ht, hst⟩ := Ty.mem_factorsEach.1 hs
  exact Ty.factor_of_child hp (h t ht) hst

theorem disjuncts_of_child {P : Ty → Prop} (hp : ∀ {s t : Ty}, P t → s ∈ t.children → P s)
    (h : ∀ p ∈ parts, P p) : ∀ ds ∈ disjuncts parts, ∀ d ∈ ds, P d := by
  intro ds hds d hd
  obtain ⟨choice, hc, rfl⟩ := List.mem_map.1 hds
  rcases Ty.mem_choice hc hd with hd | ⟨us, hus, hd⟩
  · exact h d hd
  · exact hp (h _ hus) hd

theorem joinParts_sifted (hs : ∀ t ∈ ts, env.Sound t) : env.Sifted (env.joinParts ts) := by
  refine sortedBy_sifted (fun p hp ↦ ?_) (pruned_apart env.below _)
  exact alternativesEach_of_child Sound.child hs p (List.mem_filter.1 ((pruned_sublist _ _).subset hp)).1

theorem meetParts_sifted (hs : ∀ t ∈ ts, env.Sound t) : env.Sifted (env.meetParts ts) := by
  refine sortedBy_sifted (fun p hp ↦ ?_) ((pruned_apart _ _).imp fun h ↦ ⟨h.2, h.1⟩)
  exact factorsEach_of_child Sound.child hs p (List.mem_filter.1 ((pruned_sublist _ _).subset hp)).1

/-- A canonical intersection is distributed already. -/
theorem spread_of_canonical (hs : env.Sound t) (hc : env.Canonical t) : env.spread t = t := by
  cases hi : t.isInter
  · exact spread_of_not_inter env hi
  · cases t <;> cases hi
    exact spread_keep ((interParts_iff fun p hp ↦ hs.child hp).1 hc.interParts).2.2.2

theorem canonical_union (hc : ∀ p ∈ parts, env.Canonical p) (hu : env.UnionParts parts) :
    env.Canonical (.union parts) :=
  .node hc (fun _ h ↦ by cases h; exact hu) nofun

theorem canonical_inter (hc : ∀ p ∈ parts, env.Canonical p) (hi : env.InterParts parts) :
    env.Canonical (.inter parts) :=
  .node hc nofun fun _ h ↦ by cases h; exact hi

theorem two_le_length {α : Type} {as : List α} (h₀ : as = [] → False) (h₁ : ∀ a, as = [a] → False) :
    2 ≤ as.length := by
  match as with
  | [] => exact absurd rfl h₀
  | [a] => exact absurd rfl (h₁ a)
  | _ :: _ :: as => exact Nat.le_add_left 2 as.length

theorem joinParts_canonical (hs : ∀ t ∈ ts, env.Sound t) (hc : ∀ t ∈ ts, env.Canonical t) :
    env.Sound (Ty.ofAlternatives (env.joinParts ts)) ∧
      env.Canonical (Ty.ofAlternatives (env.joinParts ts)) := by
  have hsp : ∀ p ∈ env.joinParts ts, env.Sound p :=
    fun p hp ↦ alternativesEach_of_child Sound.child hs p (mem_joinParts hp).1
  have hcp : ∀ p ∈ env.joinParts ts, env.Canonical p :=
    fun p hp ↦ alternativesEach_of_child Canonical.child hc p (mem_joinParts hp).1
  have hsift := joinParts_sifted hs
  unfold Ty.ofAlternatives
  split
  · exact ⟨sound_atomic env _, canonical_atomic env _⟩
  · next hany =>
    split
    · exact ⟨sound_atomic env _, canonical_atomic env _⟩
    · next p hp => exact ⟨hsp p (by rw [hp]; simp), hcp p (by rw [hp]; simp)⟩
    · next h₀ h₁ =>
      refine ⟨sound_union hsp, canonical_union hcp ((unionParts_iff hsp).2 ⟨?_, ?_, hsift⟩)⟩
      · exact two_le_length h₀ h₁
      · intro p hp
        obtain ⟨ha, hn⟩ := mem_joinParts hp
        obtain ⟨t, -, hpt⟩ := Ty.mem_alternativesEach.1 ha
        exact ⟨(Ty.alternatives_spec hpt).1, hn, by simpa using fun h ↦ hany (List.any_eq_true.2 ⟨p, hp, h⟩)⟩

/-- The union of canonical types is made of what is left of their parts; nothing is distributed. -/
theorem joined_eq_ofAlternatives (hs : ∀ t ∈ ts, env.Sound t) (hc : ∀ t ∈ ts, env.Canonical t) :
    env.joined ts = Ty.ofAlternatives (env.joinParts ts) := by
  obtain ⟨hs', hc'⟩ := joinParts_canonical hs hc
  rw [joined_eq (sound_union hs).toFounded, spread_of_canonical hs' hc']

/-- The union of canonical types is canonical. -/
theorem joined_canonical (hs : ∀ t ∈ ts, env.Sound t) (hc : ∀ t ∈ ts, env.Canonical t) :
    env.Sound (env.joined ts) ∧ env.Canonical (env.joined ts) := by
  rw [joined_eq_ofAlternatives hs hc]
  exact joinParts_canonical hs hc

theorem meetParts_plain (env : Env) {p : Ty} (hn : (meetFactors ts).any Ty.isNever = false)
    (h : p ∈ env.meetParts ts) : p.isInter = false ∧ p.isAny = false ∧ p.isNever = false := by
  have hm := mem_meetParts h
  obtain ⟨hf, ha⟩ := mem_meetFactors.1 hm
  obtain ⟨t, -, hpt⟩ := Ty.mem_factorsEach.1 hf
  exact ⟨(Ty.factors_spec hpt).1, ha, Bool.eq_false_of_not_eq_true (List.any_eq_false.1 hn p hm)⟩

/-- What components have from the types they are in, and unions and intersections from their parts. -/
structure Closed (P : Ty → Prop) : Prop where
  child : ∀ {s t : Ty}, P t → s ∈ t.children → P s
  any : P .any
  never : P .never
  union : ∀ {parts : List Ty}, (∀ p ∈ parts, P p) → P (.union parts)
  inter : ∀ {parts : List Ty}, (∀ p ∈ parts, P p) → P (.inter parts)

theorem joined_closed {P : Ty → Prop} (hP : Closed P) (hs : ∀ t ∈ ts, env.Sound t)
    (hc : ∀ t ∈ ts, env.Canonical t) (hp : ∀ t ∈ ts, P t) : P (env.joined ts) := by
  have hparts : ∀ p ∈ env.joinParts ts, P p :=
    fun p h ↦ alternativesEach_of_child hP.child hp p (mem_joinParts h).1
  rw [joined_eq_ofAlternatives hs hc]
  exact Ty.ofAlternatives_closed hP.any hP.never hP.union hparts

/-- Unions of the same parts are the same, however the parts are nested. -/
theorem joined_congr {ss : List Ty} (hs : ∀ s ∈ ss, env.Sound s) (ht : ∀ t ∈ ts, env.Sound t)
    (h : Ty.alternativesEach ss = Ty.alternativesEach ts) : env.joined ss = env.joined ts := by
  rw [joined_eq (sound_union hs).toFounded, joined_eq (sound_union ht).toFounded, joinParts, joinParts, h]

/-- The intersection of canonical types is canonical, also where it is distributed. -/
theorem met_closed {P : Ty → Prop} (hP : Closed P) (hs : ∀ t ∈ ts, env.Sound t)
    (hc : ∀ t ∈ ts, env.Canonical t) (hp : ∀ t ∈ ts, P t) :
    env.Sound (env.met ts) ∧ env.Canonical (env.met ts) ∧ P (env.met ts) := by
  -- The alternatives of a distribution are intersections of smaller rank.
  induction hr : env.rank (.inter ts) using Nat.strongRecOn generalizing ts with
  | ind n ih =>
    have hfounded := (sound_inter hs).toFounded
    have each {Q : Ty → Prop} (hQ : ∀ {s t : Ty}, Q t → s ∈ t.children → Q s)
        (h : ∀ t ∈ ts, Q t) : ∀ p ∈ env.meetParts ts, Q p :=
      fun p hp ↦ factorsEach_of_child hQ h p (mem_meetFactors.1 (mem_meetParts hp)).1
    have hsp := each Sound.child hs
    have hcp := each Canonical.child hc
    have hpp := each hP.child hp
    have hsift := meetParts_sifted hs
    rw [met_eq hfounded]
    split
    · exact ⟨sound_atomic env _, canonical_atomic env _, hP.never⟩
    next hn =>
    have hplain {p : Ty} := meetParts_plain env (p := p) (Bool.eq_false_of_not_eq_true hn)
    have hfits := fits_meetParts env ts
    unfold Ty.ofFactors
    split
    · rw [spread_of_not_inter env rfl]
      exact ⟨sound_atomic env _, canonical_atomic env _, hP.any⟩
    · next p hp =>
      have hm : p ∈ env.meetParts ts := by rw [hp]; exact List.mem_cons_self
      rw [spread_of_not_inter env (hplain hm).1]
      exact ⟨hsp p hm, hcp p hm, hpp p hm⟩
    · next h₀ h₁ =>
      have htwo := two_le_length h₀ h₁
      rw [Ty.ofFactors_several htwo] at hfits
      cases hk : env.keeps (env.meetParts ts)
      · have hu := (Bool.or_eq_false_iff.1 hk).1
        have hd : ∀ r ∈ (disjuncts (env.meetParts ts)).map env.met,
            env.Sound r ∧ env.Canonical r ∧ P r := by
          refine List.forall_mem_map.2 fun ds hds ↦ ih (env.rank (.inter ds)) ?_
            (disjuncts_of_child Sound.child hsp ds hds) (disjuncts_of_child Canonical.child hcp ds hds)
            (disjuncts_of_child hP.child hpp ds hds) rfl
          exact hr ▸ (rank_disjunct_lt env hds hu).trans_le (rank_le_of_fits env hfits)
        have hds := fun r hr ↦ (hd r hr).1
        have hdc := fun r hr ↦ (hd r hr).2.1
        rw [spread_distribute (sound_inter hsp).toFounded hk]
        obtain ⟨h₁, h₂⟩ := joined_canonical hds hdc
        exact ⟨h₁, h₂, joined_closed hP hds hdc fun r hr ↦ (hd r hr).2.2⟩
      · rw [spread_keep hk]
        refine ⟨sound_inter hsp, canonical_inter hcp ((interParts_iff hsp).2 ⟨htwo, ?_, hsift, hk⟩),
          hP.inter hpp⟩
        exact fun p hp ↦ hplain hp

theorem met_canonical (hs : ∀ t ∈ ts, env.Sound t) (hc : ∀ t ∈ ts, env.Canonical t) :
    env.Sound (env.met ts) ∧ env.Canonical (env.met ts) := by
  have always : Closed fun _ ↦ True := ⟨fun _ _ ↦ trivial, trivial, trivial, fun _ ↦ trivial, fun _ ↦ trivial⟩
  obtain ⟨h₁, h₂, -⟩ := met_closed always hs hc fun _ _ ↦ trivial
  exact ⟨h₁, h₂⟩

/-- Parts that are sifted already are all left, in their order. -/
theorem joinParts_of_sifted (hs : ∀ p ∈ parts, env.Sound p)
    (hplain : ∀ p ∈ parts, p.isUnion = false ∧ p.isNever = false) (h : env.Sifted parts) :
    env.joinParts parts = parts := by
  have hflat : (Ty.alternativesEach parts).filter (!·.isNever) = parts := by
    rw [Ty.alternativesEach_of_not_union fun p hp ↦ (hplain p hp).1, List.filter_eq_self]
    exact fun p hp ↦ by rw [(hplain p hp).2]; rfl
  rw [joinParts, hflat, pruned_of_apart _ h.apart, sortedBy_of_sifted hs h]

/-- A canonical union is the union of its parts. -/
theorem joined_of_unionParts (hs : ∀ p ∈ parts, env.Sound p) (h : env.UnionParts parts) :
    env.joined parts = .union parts := by
  obtain ⟨htwo, hplain, hsift⟩ := (unionParts_iff hs).1 h
  have hparts := joinParts_of_sifted hs (fun p hp ↦ ⟨(hplain p hp).1, (hplain p hp).2.1⟩) hsift
  have hany : parts.any Ty.isAny = false :=
    List.any_eq_false.2 fun p hp ↦ Bool.not_eq_true _ ▸ (hplain p hp).2.2
  rw [joined_eq (sound_union hs).toFounded, hparts, Ty.ofAlternatives_several hany htwo]
  exact spread_of_not_inter env rfl

theorem meetFactors_of_plain (hplain : ∀ p ∈ parts, p.isInter = false ∧ p.isAny = false) :
    meetFactors parts = parts := by
  rw [meetFactors, Ty.factorsEach_of_not_inter fun p hp ↦ (hplain p hp).1, List.filter_eq_self]
  exact fun p hp ↦ by rw [(hplain p hp).2]; rfl

theorem meetParts_of_sifted (hs : ∀ p ∈ parts, env.Sound p)
    (hplain : ∀ p ∈ parts, p.isInter = false ∧ p.isAny = false) (h : env.Sifted parts) :
    env.meetParts parts = parts := by
  rw [meetParts, meetFactors_of_plain hplain, pruned_of_apart _ (h.apart.imp fun h ↦ ⟨h.2, h.1⟩),
    sortedBy_of_sifted hs h]

/-- A canonical intersection is the intersection of its parts. -/
theorem met_of_interParts (hs : ∀ p ∈ parts, env.Sound p) (h : env.InterParts parts) :
    env.met parts = .inter parts := by
  obtain ⟨htwo, hplain, hsift, hk⟩ := (interParts_iff hs).1 h
  have hplain' : ∀ p ∈ parts, p.isInter = false ∧ p.isAny = false :=
    fun p hp ↦ ⟨(hplain p hp).1, (hplain p hp).2.1⟩
  have hnever : (meetFactors parts).any Ty.isNever = false := by
    rw [meetFactors_of_plain hplain']
    exact List.any_eq_false.2 fun p hp ↦ Bool.not_eq_true _ ▸ (hplain p hp).2.2
  rw [met_eq (sound_inter hs).toFounded, if_neg (Bool.not_eq_true _ ▸ hnever),
    meetParts_of_sifted hs hplain' hsift, Ty.ofFactors_several htwo]
  exact spread_keep hk

end Env

end TypeAlgebra
