import TypeAlgebra.Proofs.Difference
import TypeAlgebra.Proofs.Halting

namespace TypeAlgebra

theorem allM_map {α β : Type} {m : Type → Type} [Monad m] (f : α → β) (test : β → m Bool) (as : List α) :
    (as.map f).allM test = as.allM fun a ↦ test (f a) := by
  induction as with
  | nil => rfl
  | cons a as ih => simp only [List.map_cons, List.allM, ih]

theorem allPairs_map {α β γ δ : Type} {m : Type → Type} [Monad m] (f : α → γ) (g : β → δ)
    (test : γ → δ → m Bool) (as : List α) (bs : List β) :
    allPairs test (as.map f) (bs.map g) = allPairs (fun a b ↦ test (f a) (g b)) as bs := by
  rw [allPairs, allPairs, List.length_map, List.length_map, List.zip_map, allM_map]
  rfl

theorem anyM_map {α β : Type} {m : Type → Type} [Monad m] (f : α → β) (test : β → m Bool) (as : List α) :
    (as.map f).anyM test = as.anyM fun a ↦ test (f a) := by
  induction as with
  | nil => rfl
  | cons a as ih => simp only [List.map_cons, List.anyM, ih]

namespace Ty

def mapChildren (f : Ty → Ty) : Ty → Ty
  | proc params result => proc (params.map f) (f result)
  | tuple elems => tuple (elems.map f)
  | union parts => union (parts.map f)
  | inter parts => inter (parts.map f)
  | pred inner => pred (f inner)
  | t => t

section Components

variable {f g : Ty → Ty} {s t : Ty}

theorem children_mapChildren (f : Ty → Ty) (t : Ty) : (t.mapChildren f).children = t.children.map f := by
  cases t <;> simp [mapChildren, children]

theorem mapChildren_congr (h : ∀ s ∈ t.children, f s = g s) : t.mapChildren f = t.mapChildren g := by
  have each {ts : List Ty} (h : ∀ s ∈ ts, f s = g s) : ts.map f = ts.map g := List.map_congr_left h
  cases t with
  | proc params result =>
    rw [mapChildren, mapChildren, each fun s hs ↦ h s (List.mem_append_left _ hs),
      h result (by simp [children])]
  | tuple elems => exact congrArg tuple (each h)
  | union parts => exact congrArg union (each h)
  | inter parts => exact congrArg inter (each h)
  | pred inner => exact congrArg pred (h inner List.mem_cons_self)
  | _ => rfl

theorem mapChildren_id (t : Ty) : t.mapChildren id = t := by
  cases t <;> simp [mapChildren]

theorem isUnion_mapChildren (f : Ty → Ty) (t : Ty) : (t.mapChildren f).isUnion = t.isUnion := by
  cases t <;> rfl

theorem isInter_mapChildren (f : Ty → Ty) (t : Ty) : (t.mapChildren f).isInter = t.isInter := by
  cases t <;> rfl

theorem isAny_mapChildren (f : Ty → Ty) (t : Ty) : (t.mapChildren f).isAny = t.isAny := by
  cases t <;> rfl

theorem isNever_mapChildren (f : Ty → Ty) (t : Ty) : (t.mapChildren f).isNever = t.isNever := by
  cases t <;> rfl

theorem equalBy_mapChildren {m : Type → Type} [Monad m] (p : Ty → Ty → m Bool) (f : Ty → Ty) (s t : Ty) :
    equalBy p (s.mapChildren f) (t.mapChildren f) = equalBy (fun a b ↦ p (f a) (f b)) s t := by
  cases s <;> cases t <;> simp only [mapChildren, equalBy, allPairs_map]

theorem formBy_mapChildren (p : Ty → Except Failure (List Tree)) (f : Ty → Ty) (t : Ty) :
    (t.mapChildren f).formBy p = t.formBy fun s ↦ p (f s) := by
  have each (ts : List Ty) : (ts.map f).mapM p = ts.mapM fun s ↦ p (f s) := by
    induction ts with
    | nil => rfl
    | cons t ts ih => rw [List.map_cons, List.mapM_cons, List.mapM_cons, ih]
  cases t <;> simp only [mapChildren, formBy, each]

/-- The subtype rules see the components and the types themselves. -/
theorem subtypeBy_map {m : Type → Type} [Monad m] (p : Ty → Ty → m Bool) (hs : f s = s.mapChildren f)
    (ht : f t = t.mapChildren f) :
    subtypeBy p (f s) (f t) = subtypeBy (fun a b ↦ p (f a) (f b)) s t := by
  cases s <;> cases t <;>
    simp only [hs, ht, mapChildren, subtypeBy, allPairs_map, allM_map, anyM_map]

theorem equalBy_congr {ε : Type} {p q : Ty → Ty → Except ε Bool}
    (h : ∀ a ∈ s.children, ∀ b ∈ t.children, p a b = q a b) : equalBy p s t = equalBy q s t := by
  have hr := Coupling.mirrored.rel_equalBy (f := id) (p := p) (q := q) (s := s) (t := t) (fun _ ↦ rfl)
    fun a ha b hb ↦ by
      rw [rename_id, rename_id, h a ha b hb]
      exact Coupling.mirrored_eq_iff.2 rfl
  rw [rename_id, rename_id] at hr
  exact Coupling.mirrored_eq_iff.1 hr

/-- What can be written has components that can. -/
theorem form?_of_child (h : t.form?.isSome = true) (hs : s ∈ t.children) : s.form?.isSome = true := by
  have first {α β : Type} {x : Option α} {f : α → Option β} (h : (x >>= f).isSome = true) :
      x.isSome = true := by
    cases x with
    | none => cases h
    | some a => rfl
  have next {α β : Type} {x : Option α} {f : α → Option β} (h : (x >>= f).isSome = true) :
      ∃ a, (f a).isSome = true := by
    cases x with
    | none => cases h
    | some a => exact ⟨a, h⟩
  have each {ts : List Ty} (h : (formEach? ts).isSome = true) : ∀ s ∈ ts, s.form?.isSome = true := by
    induction ts with
    | nil => exact nofun
    | cons t ts ih =>
      obtain ⟨_, hts⟩ := next h
      exact List.forall_mem_cons.2 ⟨first h, ih (first hts)⟩
  cases t with
  | proc params result =>
    rcases List.mem_append.1 hs with hs | hs
    · exact each (first h) s hs
    · obtain ⟨_, hr⟩ := next h
      rw [List.mem_singleton.1 hs]
      exact first hr
  | tuple elems => exact each (first h) s hs
  | union parts => exact each (first h) s hs
  | inter parts => exact each (first h) s hs
  | pred inner =>
    rw [List.mem_singleton.1 hs]
    exact first h
  | _ => cases hs

theorem whole_of_form? (h : t.form?.isSome = true) : t.Whole := by
  induction t using induction_children with
  | step t ih =>
    refine .node ?_ fun s hs ↦ ih s hs (form?_of_child h hs)
    rintro rfl
    cases h

/-- Types with something missing all have the same text. -/
theorem text_of_not_whole (hs : ¬s.Whole) (ht : ¬t.Whole) : s.text = t.text := by
  have unwritten {u : Ty} (hu : ¬u.Whole) : u.form? = none := by
    cases h : u.form? with
    | none => rfl
    | some trees => exact absurd (whole_of_form? (by rw [h]; rfl)) hu
  rw [text, text, unwritten hs, unwritten ht]

end Components

/-- Types that the canonical constructors take as they are. -/
def isPlain (t : Ty) : Bool :=
  !(t.isUnion || t.isInter || t.isAny || t.isNever)

theorem isPlain_mapChildren (f : Ty → Ty) (t : Ty) : (t.mapChildren f).isPlain = t.isPlain := by
  cases t <;> rfl

theorem isPlain_iff {t : Ty} : t.isPlain = true ↔
    t.isUnion = false ∧ t.isInter = false ∧ t.isAny = false ∧ t.isNever = false := by
  simp [isPlain, and_assoc]

end Ty

namespace Env

variable {env : Env} {s t u : Ty} {v : Var} {ts parts : List Ty} {d : Nat}

def substitutedTo (env : Env) : (depth : Nat) → Ty → Ty
  | 0, t => t
  | depth + 1, t => (env.resolved t).mapChildren (env.substitutedTo depth)

/-- The type with every bound variable replaced by its contents, and so on in the contents. -/
def substituted (env : Env) (t : Ty) : Ty :=
  env.substitutedTo (env.depth [t]) t

theorem rank_child_resolved (ht : env.Founded t) (h : s ∈ (env.resolved t).children) :
    env.rank s < env.rank t :=
  (rank_lt_of_child env h).trans_le (resolved_spec ht).2.2.2

theorem substitutedTo_settled {n : Nat} (ht : env.Founded t) (hn : env.rank t ≤ n) (hd : n ≤ d) :
    env.substitutedTo d t = env.substitutedTo n t := by
  induction n generalizing t d with
  | zero => exact absurd hn (Nat.not_le.2 (rank_pos env t))
  | succ n ih =>
    obtain ⟨d, rfl⟩ : ∃ k, d = k + 1 := ⟨d - 1, by omega⟩
    refine Ty.mapChildren_congr fun s hs ↦ ih (ht.resolved.child hs) ?_ (by omega)
    have := rank_child_resolved ht hs
    omega

theorem substitutedTo_eq (ht : env.Founded t) (hd : env.rank t ≤ d) :
    env.substitutedTo d t = env.substituted t := by
  have hdepth : env.rank t < env.depth [t] := rank_lt_depth List.mem_cons_self
  rw [substituted, substitutedTo_settled ht le_rfl hd, substitutedTo_settled ht le_rfl hdepth.le]

theorem substituted_eq (ht : env.Founded t) :
    env.substituted t = (env.resolved t).mapChildren env.substituted := by
  rw [← substitutedTo_eq ht (Nat.le_succ (env.rank t))]
  refine Ty.mapChildren_congr fun s hs ↦ substitutedTo_eq (ht.resolved.child hs) ?_
  exact (rank_child_resolved ht hs).le

theorem Resolved.substituted_eq (h : env.Resolved t) (ht : env.Founded t) :
    env.substituted t = t.mapChildren env.substituted := by
  rw [Env.substituted_eq ht, h.resolved_eq]

theorem substituted_of_not_var (ht : env.Founded t) (h : t.isVar = false) :
    env.substituted t = t.mapChildren env.substituted :=
  (resolved_of_not_var h).substituted_eq ht

theorem substituted_resolved (ht : env.Founded t) :
    env.substituted (env.resolved t) = env.substituted t := by
  rw [(resolved_spec ht).2.1.substituted_eq ht.resolved, ← substituted_eq ht]

/-- No bound variable is left. -/
theorem free_substituted (ht : env.Founded t) : env.Free (env.substituted t) := by
  induction hn : env.rank t using Nat.strongRecOn generalizing t with
  | ind n ih =>
    intro v hv
    rw [substituted_eq ht] at hv
    rcases Ty.mem_vars_iff.1 hv with he | ⟨s, hs, hvs⟩
    · refine (resolved_spec ht).2.1 v ?_
      generalize env.resolved t = u at he
      cases u <;> cases he
      rfl
    · rw [Ty.children_mapChildren] at hs
      obtain ⟨a, ha, rfl⟩ := List.mem_map.1 hs
      exact ih (env.rank a) (hn ▸ rank_child_resolved ht ha) (ht.resolved.child ha) rfl v hvs

theorem founded_substituted (ht : env.Founded t) : env.Founded (env.substituted t) :=
  (free_substituted ht).founded

theorem resolved_substituted (ht : env.Founded t) :
    env.resolved (env.substituted t) = (env.resolved t).mapChildren env.substituted := by
  rw [(free_substituted ht).resolved.resolved_eq, substituted_eq ht]

theorem equalTo_substituted (d : Nat) (hs : env.Founded s) (ht : env.Founded t) :
    env.equalTo d (env.substituted s) (env.substituted t) = env.equalTo d s t := by
  induction d generalizing s t with
  | zero => rfl
  | succ d ih =>
    rw [equalTo_succ (founded_substituted hs) (founded_substituted ht), equalTo_succ hs ht,
      resolved_substituted hs, resolved_substituted ht, Ty.equalBy_mapChildren]
    exact Ty.equalBy_congr fun a ha b hb ↦ ih (hs.resolved.child ha) (ht.resolved.child hb)

/-- Without bound variables there is nothing to replace. -/
theorem Free.substituted_eq (ht : env.Free t) : env.substituted t = t := by
  induction t using Ty.induction_children with
  | step t ih =>
    rw [ht.resolved.substituted_eq ht.founded, Ty.mapChildren_congr fun s hs ↦ ih s hs (ht.child hs)]
    exact t.mapChildren_id

theorem equal_substituted (ht : env.Founded t) : env.equal t (env.substituted t) = .ok true := by
  have hfree := free_substituted ht
  rw [equal, ← equalTo_substituted _ ht hfree.founded, hfree.substituted_eq,
    equalTo_eq_same hfree.founded hfree.founded (rank_lt_depth (by simp)), same_refl hfree.founded]

theorem formTo_substituted (d : Nat) (ht : env.Founded t) :
    env.formTo d (env.substituted t) = env.formTo d t := by
  induction d generalizing t with
  | zero => rfl
  | succ d ih =>
    rw [formTo_succ (founded_substituted ht), formTo_succ ht, resolved_substituted ht,
      Ty.formBy_mapChildren]
    exact Ty.formBy_congr fun s hs ↦ ih (ht.resolved.child hs)

/-- A sound type can be written, if the depth is enough to do so. -/
theorem formTo_sound (d : Nat) (ht : env.Sound t) :
    env.formTo d t = .error (.fault .unfounded) ∨ ∃ trees, env.formTo d t = .ok trees := by
  obtain ⟨trees, hform⟩ := exists_form ht
  have hdeep : env.formTo (d + (env.rank t + 1)) t = .ok trees := by
    rw [formTo_eq_form ht.toFounded (by omega), hform]
  have hmore := (deepening env (env.rank t + 1)).formTo d (over_true t)
  rw [Ty.rename_id, hdeep] at hmore
  rcases hmore with ⟨e | e, he, hx⟩ | ⟨a, b, hx, hy, rfl⟩ | ⟨e, hx, hy⟩
  · cases he
  · obtain rfl : e = .unfounded := he
    exact .inl hx
  · exact .inr ⟨a, hx⟩
  · cases hy

theorem whole_of_substituted (ht : env.Founded t) (h : (env.substituted t).Whole) : t.Whole := by
  induction t using Ty.induction_children with
  | step t ih =>
    cases hv : t.isVar
    · rw [substituted_of_not_var ht hv] at h
      refine .node ?_ fun s hs ↦ ih s hs (ht.child hs) (h.child ?_)
      · rintro rfl
        exact h.ne_absent rfl
      · rw [Ty.children_mapChildren]
        exact List.mem_map_of_mem hs
    · cases t <;> cases hv
      exact .node nofun nofun

/-- Types are ordered as before, if there is nothing missing in what is put in. -/
theorem sortKeyTo_substituted (d : Nat) (ht : env.Founded t)
    (hc : ∀ v u, env.Reaches t v → env.Binds v u → u.Whole) :
    env.sortKeyTo d (env.substituted t) = env.sortKeyTo d t := by
  rw [sortKeyTo, sortKeyTo, formTo_substituted d ht]
  by_cases hw : t.Whole
  · rcases formTo_sound d ⟨ht, hw, hc⟩ with h | ⟨trees, h⟩ <;> rw [h]
  · rw [Ty.text_of_not_whole (mt (whole_of_substituted ht) hw) hw]

inductive PlainParts (env : Env) : Ty → Prop
  | node {t : Ty} : (∀ s ∈ t.children, env.PlainParts s) →
      (t.isUnion = true ∨ t.isInter = true →
        ∀ v, Ty.var v ∈ t.children → (env.resolved (.var v)).isPlain = true) →
      env.PlainParts t

theorem PlainParts.child (ht : env.PlainParts t) (h : s ∈ t.children) : env.PlainParts s := by
  obtain ⟨hc, -⟩ := ht
  exact hc s h

theorem PlainParts.plain (ht : env.PlainParts t) (hi : t.isUnion = true ∨ t.isInter = true)
    (h : Ty.var v ∈ t.children) : (env.resolved (.var v)).isPlain = true := by
  obtain ⟨-, hp⟩ := ht
  exact hp hi v h

/--
A founded type in which variables among parts stand for plain types, and so in all contents in its reach, where
besides nothing is missing.
-/
structure Regular (env : Env) (t : Ty) : Prop extends env.Founded t where
  plain : env.PlainParts t
  contents : ∀ v u, env.Reaches t v → env.Binds v u → u.Whole ∧ env.PlainParts u

structure Part (env : Env) (t : Ty) : Prop extends env.Regular t where
  stands : t.isVar = true → (env.resolved t).isPlain = true

theorem Regular.of_vars (ht : env.Regular t) (h : s.vars ⊆ t.vars) (hp : env.PlainParts s) :
    env.Regular s where
  toFounded := ht.toFounded.of_vars h
  plain := hp
  contents v u hv := ht.contents v u (hv.mono h)

theorem Regular.child (ht : env.Regular t) (h : s ∈ t.children) : env.Regular s :=
  ht.of_vars (fun _ ↦ Ty.mem_vars_of_child h) (ht.plain.child h)

theorem Regular.part (ht : env.Regular t) (hi : t.isUnion = true ∨ t.isInter = true) (h : s ∈ t.children) :
    env.Part s where
  toRegular := ht.child h
  stands hv := by
    cases s <;> cases hv
    exact ht.plain.plain hi h

theorem resolved_cases (ht : env.Founded t) :
    env.resolved t = t ∨ ∃ v, env.Reaches t v ∧ env.Binds v (env.resolved t) := by
  have follow {steps : Nat} {t u : Ty} (ht : env.Founded t) (h : env.cells.follow steps t = .ok u) :
      u = t ∨ ∃ v, env.Reaches t v ∧ env.Binds v u := by
    induction steps generalizing t with
    | zero => cases h
    | succ steps ih =>
      cases t with
      | var v =>
        have hv : env.Reaches (.var v) v := reaches_self (List.mem_singleton_self v)
        obtain ⟨c, hc⟩ := ht.owned v hv
        rw [Cells.follow, hc] at h
        cases c with
        | none =>
          cases h
          exact .inl rfl
        | some w =>
          rcases ih (ht.contents hc) h with rfl | ⟨x, hx, hb⟩
          · exact .inr ⟨v, hv, hc⟩
          · exact .inr ⟨x, hv.trans_binds hc hx, hb⟩
      | _ =>
        cases h
        exact .inl rfl
  have h := (resolved_spec ht).1
  cases t with
  | var v => exact follow ht h
  | _ => exact .inl rfl

theorem Regular.resolved (ht : env.Regular t) : env.Regular (env.resolved t) where
  toFounded := ht.toFounded.resolved
  plain := by
    rcases resolved_cases ht.toFounded with h | ⟨v, hv, hb⟩
    · rw [h]
      exact ht.plain
    · exact (ht.contents v _ hv hb).2
  contents v u hv := ht.contents v u ((resolved_spec ht.toFounded).2.2.1 v hv)

theorem regular_union (h : ∀ t ∈ ts, env.Part t) : env.Regular (.union ts) where
  toFounded := founded_union.2 fun t ht ↦ (h t ht).toFounded
  plain := .node (fun t ht ↦ (h t ht).plain) fun _ _ hv ↦ (h _ hv).stands rfl
  contents v u hv hb := by
    obtain ⟨t, ht, hr⟩ := reaches_union.1 hv
    exact (h t ht).contents v u hr hb

theorem regular_inter (h : ∀ t ∈ ts, env.Part t) : env.Regular (.inter ts) :=
  (regular_union h).of_vars (List.Subset.refl _)
    (.node (fun t ht ↦ (h t ht).plain) fun _ _ hv ↦ (h _ hv).stands rfl)

theorem part_atomic (env : Env) (kind : Kind) : env.Part (.atomic kind) where
  toFounded := (sound_atomic env kind).toFounded
  plain := .node nofun nofun
  contents _ _ h := by obtain ⟨_, h, -⟩ := h; cases h
  stands := nofun

theorem part_union (h : ∀ t ∈ ts, env.Part t) : env.Part (.union ts) :=
  ⟨regular_union h, nofun⟩

theorem part_inter (h : ∀ t ∈ ts, env.Part t) : env.Part (.inter ts) :=
  ⟨regular_inter h, nofun⟩

theorem part_ofAlternatives (h : ∀ p ∈ parts, env.Part p) : env.Part (Ty.ofAlternatives parts) :=
  Ty.ofAlternatives_closed (part_atomic env _) (part_atomic env _) part_union h

theorem part_ofFactors (h : ∀ p ∈ parts, env.Part p) : env.Part (Ty.ofFactors parts) :=
  Ty.ofFactors_closed (part_atomic env _) part_inter h

theorem Part.substituted_cases (ht : env.Part t) :
    env.substituted t = t.mapChildren env.substituted ∨
      t.isVar = true ∧ (env.substituted t).isPlain = true := by
  cases hv : t.isVar
  · exact .inl (substituted_of_not_var ht.toFounded hv)
  · refine .inr ⟨rfl, ?_⟩
    rw [substituted_eq ht.toFounded, Ty.isPlain_mapChildren]
    exact ht.stands hv

/-- What a part is made of is seen without following bindings. -/
theorem Part.shape (ht : env.Part t) :
    (env.substituted t).isUnion = t.isUnion ∧ (env.substituted t).isInter = t.isInter ∧
      (env.substituted t).isAny = t.isAny ∧ (env.substituted t).isNever = t.isNever := by
  rcases ht.substituted_cases with h | ⟨hv, hp⟩
  · rw [h]
    exact ⟨Ty.isUnion_mapChildren _ t, Ty.isInter_mapChildren _ t, Ty.isAny_mapChildren _ t,
      Ty.isNever_mapChildren _ t⟩
  · cases t <;> cases hv
    exact Ty.isPlain_iff.1 hp

theorem substituted_union (ht : env.Founded (.union parts)) :
    env.substituted (.union parts) = .union (parts.map env.substituted) :=
  substituted_of_not_var ht rfl

theorem substituted_inter (ht : env.Founded (.inter parts)) :
    env.substituted (.inter parts) = .inter (parts.map env.substituted) :=
  substituted_of_not_var ht rfl

theorem substituted_atomic (env : Env) (kind : Kind) : env.substituted (.atomic kind) = .atomic kind :=
  substituted_of_not_var (sound_atomic env kind).toFounded rfl

theorem Part.alternatives (ht : env.Part t) :
    (env.substituted t).alternatives = t.alternatives.map env.substituted ∧
      ∀ a ∈ t.alternatives, env.Part a := by
  induction t using Ty.induction_children with
  | step t ih =>
    cases hu : t.isUnion
    · rw [Ty.alternatives_of_not_union hu, Ty.alternatives_of_not_union (ht.shape.1.trans hu)]
      exact ⟨rfl, fun a ha ↦ List.mem_singleton.1 ha ▸ ht⟩
    · cases t <;> cases hu
      next parts =>
      have hp (p : Ty) (h : p ∈ parts) := ih p h (ht.toRegular.part (.inl rfl) h)
      rw [substituted_union ht.toFounded, Ty.alternatives, Ty.alternatives]
      refine ⟨Ty.alternativesEach_map _ fun p h ↦ (hp p h).1, fun a ha ↦ ?_⟩
      obtain ⟨p, hm, hap⟩ := Ty.mem_alternativesEach.1 ha
      exact (hp p hm).2 a hap

theorem Part.factors (ht : env.Part t) :
    (env.substituted t).factors = t.factors.map env.substituted ∧ ∀ a ∈ t.factors, env.Part a := by
  induction t using Ty.induction_children with
  | step t ih =>
    cases hi : t.isInter
    · rw [Ty.factors_of_not_inter hi, Ty.factors_of_not_inter (ht.shape.2.1.trans hi)]
      exact ⟨rfl, fun a ha ↦ List.mem_singleton.1 ha ▸ ht⟩
    · cases t <;> cases hi
      next parts =>
      have hp (p : Ty) (h : p ∈ parts) := ih p h (ht.toRegular.part (.inr rfl) h)
      rw [substituted_inter ht.toFounded, Ty.factors, Ty.factors]
      refine ⟨Ty.factorsEach_map _ fun p h ↦ (hp p h).1, fun a ha ↦ ?_⟩
      obtain ⟨p, hm, hap⟩ := Ty.mem_factorsEach.1 ha
      exact (hp p hm).2 a hap

section Parts

variable (h : ∀ p ∈ parts, env.Part p)

include h

theorem alternativesEach_substituted :
    Ty.alternativesEach (parts.map env.substituted) = (Ty.alternativesEach parts).map env.substituted ∧
      ∀ a ∈ Ty.alternativesEach parts, env.Part a := by
  refine ⟨Ty.alternativesEach_map _ fun p hp ↦ (h p hp).alternatives.1, fun a ha ↦ ?_⟩
  obtain ⟨p, hp, hap⟩ := Ty.mem_alternativesEach.1 ha
  exact (h p hp).alternatives.2 a hap

theorem factorsEach_substituted :
    Ty.factorsEach (parts.map env.substituted) = (Ty.factorsEach parts).map env.substituted ∧
      ∀ a ∈ Ty.factorsEach parts, env.Part a := by
  refine ⟨Ty.factorsEach_map _ fun p hp ↦ (h p hp).factors.1, fun a ha ↦ ?_⟩
  obtain ⟨p, hp, hap⟩ := Ty.mem_factorsEach.1 ha
  exact (h p hp).factors.2 a hap

omit h in
theorem filter_substituted {test : Ty → Bool}
    (ht : ∀ p ∈ parts, test (env.substituted p) = test p) :
    (parts.map env.substituted).filter (!test ·) = (parts.filter (!test ·)).map env.substituted := by
  rw [List.filter_map]
  exact congrArg _ (List.filter_congr fun p hp ↦ congrArg _ (ht p hp))

omit h in
theorem any_substituted {test : Ty → Bool} (ht : ∀ p ∈ parts, test (env.substituted p) = test p) :
    (parts.map env.substituted).any test = parts.any test := by
  have hmap : parts.map (test ∘ env.substituted) = parts.map test := List.map_congr_left ht
  rw [List.any_map, ← Function.id_comp (test ∘ env.substituted), ← List.any_map, hmap, List.any_map,
    Function.id_comp]

theorem unionsIn_substituted :
    Ty.unionsIn (parts.map env.substituted) =
      (Ty.unionsIn parts).map (List.map env.substituted) := by
  have hu (p : Ty) (hp : p ∈ parts) :
      (env.substituted p).unionParts? = p.unionParts?.map (List.map env.substituted) := by
    rcases (h p hp).substituted_cases with he | ⟨hv, hplain⟩
    · rw [he]
      cases p <;> rfl
    · have hn := (Ty.isPlain_iff.1 hplain).1
      cases p <;> cases hv
      generalize env.substituted _ = u at hn
      cases u <;> first | rfl | cases hn
  rw [Ty.unionsIn, Ty.unionsIn, List.filterMap_map, List.map_filterMap]
  exact List.filterMap_congr hu

theorem othersIn_substituted :
    Ty.othersIn (parts.map env.substituted) = (Ty.othersIn parts).map env.substituted :=
  filter_substituted fun p hp ↦ (h p hp).shape.1

theorem ofAlternatives_substituted :
    Ty.ofAlternatives (parts.map env.substituted) = env.substituted (Ty.ofAlternatives parts) := by
  have hany := any_substituted fun p hp ↦ (h p hp).shape.2.2.1
  unfold Ty.ofAlternatives
  rw [hany]
  split
  · exact (substituted_atomic env _).symm
  · match parts, h with
    | [], _ => exact (substituted_atomic env _).symm
    | [_], _ => rfl
    | _ :: _ :: _, h => exact (substituted_union (part_union h).toFounded).symm

theorem ofFactors_substituted :
    Ty.ofFactors (parts.map env.substituted) = env.substituted (Ty.ofFactors parts) := by
  match parts, h with
  | [], _ => exact (substituted_atomic env _).symm
  | [_], _ => rfl
  | _ :: _ :: _, h => exact (substituted_inter (part_inter h).toFounded).symm

end Parts

def Stands (env : Env) (t u : Ty) : Prop :=
  env.Part t ∧ u = env.substituted t

theorem forall₂_stands (h : ∀ t ∈ ts, env.Part t) :
    List.Forall₂ env.Stands ts (ts.map env.substituted) :=
  Coupling.forall₂_image_iff.2 ⟨h, rfl⟩

theorem eq_map_of_stands {us : List Ty} (h : List.Forall₂ env.Stands ts us) :
    (∀ t ∈ ts, env.Part t) ∧ us = ts.map env.substituted :=
  Coupling.forall₂_image_iff.1 h

structure Faces (env : Env) (t u : Ty) : Prop where
  regular : env.Regular t
  resolved : env.Resolved t
  substituted : u = env.substituted t

theorem Regular.deref_faces (ht : env.Regular t) :
    Coupling.mirrored.rel env.Faces (env.deref t) (env.deref (env.substituted t)) := by
  obtain ⟨hd, hr, -⟩ := resolved_spec ht.toFounded
  exact .inl ⟨_, _, hd, (free_substituted ht.toFounded).deref, ht.resolved, hr,
    (substituted_resolved ht.toFounded).symm⟩

structure Substitutes (env : Env) (d : Nat) : Prop where
  subtype : ∀ s t : Ty, env.Regular s → env.Regular t →
    Run.mirrored.rel Eq (env.subtypeTo d s t) (env.subtypeTo d (env.substituted s) (env.substituted t))
  join : ∀ ts : List Ty, (∀ t ∈ ts, env.Part t) →
    Run.mirrored.rel env.Stands (env.joinTo d ts) (env.joinTo d (ts.map env.substituted))
  meet : ∀ ts : List Ty, (∀ t ∈ ts, env.Part t) →
    Run.mirrored.rel env.Stands (env.meetTo d ts) (env.meetTo d (ts.map env.substituted))
  distribute : ∀ t : Ty, env.Part t →
    Run.mirrored.rel env.Stands (env.distributeTo d t) (env.distributeTo d (env.substituted t))

section Layers

variable (hd : env.Substitutes d)

include hd

theorem Substitutes.leftForm (h : env.Faces s u) :
    Run.mirrored.rel env.Faces (env.leftForm (env.meetTo d) s) (env.leftForm (env.meetTo d) u) := by
  obtain ⟨hs, hr, rfl⟩ := h
  cases hi : s.isInter
  · have hu : (env.substituted s).isInter = false := by
      rw [hr.substituted_eq hs.toFounded, Ty.isInter_mapChildren, hi]
    have keep {t : Ty} (h : t.isInter = false) : env.leftForm (env.meetTo d) t = pure t := by
      cases t <;> first | rfl | cases h
    rw [keep hi, keep hu]
    exact Run.mirrored.rel_pure ⟨hs, hr, rfl⟩
  · cases s <;> cases hi
    rw [substituted_inter hs.toFounded]
    refine Run.mirrored.rel_bind (hd.meet _ fun p hp ↦ hs.part (.inr rfl) hp) fun r r' h ↦ ?_
    obtain ⟨hp, rfl⟩ := h
    exact hp.toRegular.deref_faces

theorem Substitutes.rightForm (h : env.Faces t u) :
    Run.mirrored.rel env.Faces (env.rightForm (env.joinTo d) t) (env.rightForm (env.joinTo d) u) := by
  obtain ⟨ht, hr, rfl⟩ := h
  cases hi : t.isUnion
  · have hu : (env.substituted t).isUnion = false := by
      rw [hr.substituted_eq ht.toFounded, Ty.isUnion_mapChildren, hi]
    have keep {t : Ty} (h : t.isUnion = false) : env.rightForm (env.joinTo d) t = pure t := by
      cases t <;> first | rfl | cases h
    rw [keep hi, keep hu]
    exact Run.mirrored.rel_pure ⟨ht, hr, rfl⟩
  · cases t <;> cases hi
    rw [substituted_union ht.toFounded]
    refine Run.mirrored.rel_bind (hd.join _ fun p hp ↦ ht.part (.inl rfl) hp) fun r r' h ↦ ?_
    obtain ⟨hp, rfl⟩ := h
    exact hp.toRegular.deref_faces

theorem Substitutes.rules (hs : env.Regular s) (ht : env.Regular t) (hrs : env.Resolved s)
    (hrt : env.Resolved t) :
    Run.mirrored.rel Eq (Ty.subtypeBy (env.subtypeTo d) s t)
      (Ty.subtypeBy (env.subtypeTo d) (env.substituted s) (env.substituted t)) := by
  let q (a b : Ty) : Run Bool := env.subtypeTo d (env.substituted a) (env.substituted b)
  have each {a b : Ty} (ha : env.Regular a) (hb : env.Regular b) :
      Run.mirrored.rel Eq (env.subtypeTo d a b) (q a b) :=
    hd.subtype a b ha hb
  have h := Run.mirrored.rel_subtypeBy_same (q := q) (s := s) (t := t)
    (fun a ha ↦ each (hs.child ha) ht) (fun b hb ↦ each hs (ht.child hb))
    fun a ha b hb ↦ ⟨each (hs.child ha) (ht.child hb), each (ht.child hb) (hs.child ha)⟩
  rwa [← Ty.subtypeBy_map _ (hrs.substituted_eq hs.toFounded) (hrt.substituted_eq ht.toFounded)] at h

theorem Substitutes.subtype_succ (hs : env.Regular s) (ht : env.Regular t) :
    Run.mirrored.rel Eq (env.subtypeTo (d + 1) s t)
      (env.subtypeTo (d + 1) (env.substituted s) (env.substituted t)) := by
  rw [subtypeTo, subtypeTo]
  refine Run.mirrored.rel_bind hs.deref_faces fun s₁ u₁ hs ↦ ?_
  refine Run.mirrored.rel_bind ht.deref_faces fun t₁ w₁ ht ↦ ?_
  refine Run.mirrored.rel_bind (hd.leftForm hs) fun s₂ u₂ hs ↦ ?_
  refine Run.mirrored.rel_bind (hd.rightForm ht) fun t₂ w₂ ht ↦ ?_
  obtain ⟨hs, hrs, rfl⟩ := hs
  obtain ⟨ht, hrt, rfl⟩ := ht
  have hany : (env.substituted t₂).isAny = t₂.isAny := by
    rw [hrt.substituted_eq ht.toFounded, Ty.isAny_mapChildren]
  have hnever : (env.substituted s₂).isNever = s₂.isNever := by
    rw [hrs.substituted_eq hs.toFounded, Ty.isNever_mapChildren]
  refine Run.mirrored.rel_test (Coupling.mirrored_eq_iff.2
    (equalTo_substituted d hs.toFounded ht.toFounded).symm) (Run.mirrored.rel_pure rfl) ?_
  change Run.mirrored.rel Eq (if t₂.isAny || s₂.isNever then _ else _)
    (if (env.substituted t₂).isAny || (env.substituted s₂).isNever then _ else _)
  rw [hany, hnever]
  exact Run.mirrored.rel_ite (Run.mirrored.rel_pure rfl) (hd.rules hs ht hrs hrt)

theorem Substitutes.orderBy (general : Ordering) (hs : env.Part s) (ht : env.Part t) :
    Run.mirrored.rel Eq (env.orderBy d (env.subtypeTo d) general s t)
      (env.orderBy d (env.subtypeTo d) general (env.substituted s) (env.substituted t)) := by
  have pure (o : Ordering) : Run.mirrored.rel Eq (Pure.pure o) (Pure.pure o) := Run.mirrored.rel_pure rfl
  have keys {t : Ty} (ht : env.Part t) :
      Coupling.mirrored.rel Eq (env.sortKeyTo d t) (env.sortKeyTo d (env.substituted t)) :=
    Coupling.mirrored_eq_iff.2
      (sortKeyTo_substituted d ht.toFounded fun v u hv hb ↦ (ht.contents v u hv hb).1).symm
  refine Run.mirrored.rel_test (Coupling.mirrored_eq_iff.2
    (equalTo_substituted d hs.toFounded ht.toFounded).symm) (pure .eq) ?_
  refine Run.mirrored.rel_test (hd.subtype t s ht.toRegular hs.toRegular) (pure general) ?_
  refine Run.mirrored.rel_test (hd.subtype s t hs.toRegular ht.toRegular) (pure general.swap) ?_
  refine Run.mirrored.rel_bind (keys hs) fun key key' hk ↦ ?_
  refine Run.mirrored.rel_bind (keys ht) fun other other' ho ↦ ?_
  rw [hk, ho]
  exact pure _

theorem Substitutes.join_succ (hts : ∀ t ∈ ts, env.Part t) :
    Run.mirrored.rel env.Stands (env.joinTo (d + 1) ts) (env.joinTo (d + 1) (ts.map env.substituted)) := by
  obtain ⟨hmap, hparts⟩ := alternativesEach_substituted hts
  have hfilter := filter_substituted fun p hp ↦ (hparts p hp).shape.2.2.2
  rw [joinTo, joinTo, hmap, hfilter]
  refine Run.mirrored.rel_bind (Run.mirrored.rel_prune ?_
    (forall₂_stands fun p hp ↦ hparts p (List.mem_filter.1 hp).1)) fun kept kept' hk ↦ ?_
  · rintro a _ b _ ⟨ha, rfl⟩ ⟨hb, rfl⟩
    exact hd.subtype a b ha.toRegular hb.toRegular
  refine Run.mirrored.rel_bind (Run.mirrored.rel_stableSort ?_ hk) fun sorted sorted' hsort ↦ ?_
  · rintro a _ b _ ⟨ha, rfl⟩ ⟨hb, rfl⟩
    exact hd.orderBy .gt ha hb
  obtain ⟨hp, rfl⟩ := eq_map_of_stands hsort
  rw [ofAlternatives_substituted hp]
  exact hd.distribute _ (part_ofAlternatives hp)

theorem Substitutes.meet_succ (hts : ∀ t ∈ ts, env.Part t) :
    Run.mirrored.rel env.Stands (env.meetTo (d + 1) ts) (env.meetTo (d + 1) (ts.map env.substituted)) := by
  obtain ⟨hmap, hparts⟩ := factorsEach_substituted hts
  have hfilter := filter_substituted fun p hp ↦ (hparts p hp).shape.2.2.1
  have hkept : ∀ p ∈ (Ty.factorsEach ts).filter (!·.isAny), env.Part p :=
    fun p hp ↦ hparts p (List.mem_filter.1 hp).1
  have hnever := any_substituted fun p hp ↦ (hkept p hp).shape.2.2.2
  rw [meetTo, meetTo, hmap, hfilter]
  change Run.mirrored.rel _ (if ((Ty.factorsEach ts).filter (!·.isAny)).any Ty.isNever then _ else _)
    (if (((Ty.factorsEach ts).filter (!·.isAny)).map env.substituted).any Ty.isNever then _ else _)
  rw [hnever]
  refine Run.mirrored.rel_ite (Run.mirrored.rel_pure ⟨part_atomic env _, (substituted_atomic env _).symm⟩) ?_
  refine Run.mirrored.rel_bind (Run.mirrored.rel_prune ?_ (forall₂_stands hkept)) fun kept kept' hk ↦ ?_
  · rintro a _ b _ ⟨ha, rfl⟩ ⟨hb, rfl⟩
    exact hd.subtype b a hb.toRegular ha.toRegular
  refine Run.mirrored.rel_bind (Run.mirrored.rel_stableSort ?_ hk) fun sorted sorted' hsort ↦ ?_
  · rintro a _ b _ ⟨ha, rfl⟩ ⟨hb, rfl⟩
    exact hd.orderBy .lt ha hb
  obtain ⟨hp, rfl⟩ := eq_map_of_stands hsort
  rw [ofFactors_substituted hp]
  exact hd.distribute _ (part_ofFactors hp)

theorem Substitutes.distribute_succ (ht : env.Part t) :
    Run.mirrored.rel env.Stands (env.distributeTo (d + 1) t)
      (env.distributeTo (d + 1) (env.substituted t)) := by
  cases hi : t.isInter
  · exact .inl ⟨_, _, distributeTo_of_not_inter hi,
      distributeTo_of_not_inter (ht.shape.2.1.trans hi), ht, rfl⟩
  · cases t <;> cases hi
    next parts =>
    have hparts (p : Ty) (hp : p ∈ parts) : env.Part p := ht.toRegular.part (.inr rfl) hp
    have hu := unionsIn_substituted hparts
    have ho := othersIn_substituted hparts
    have hinter := substituted_inter ht.toFounded
    have hexceeds (unions : List (List Ty)) :
        env.exceeds (unions.map (List.map env.substituted)) = env.exceeds unions := by
      simp only [exceeds, List.map_map, Function.comp_def, List.length_map]
    rw [hinter, distributeTo, distributeTo]
    change Run.mirrored.rel _ (if (Ty.unionsIn parts).isEmpty then _
        else if env.exceeds (Ty.unionsIn parts) then _ else _)
      (if (Ty.unionsIn (parts.map env.substituted)).isEmpty then _
        else if env.exceeds (Ty.unionsIn (parts.map env.substituted)) then _ else _)
    rw [hu, hexceeds, List.isEmpty_map]
    refine Run.mirrored.rel_ite (Run.mirrored.rel_pure ⟨ht, hinter.symm⟩) ?_
    refine Run.mirrored.rel_ite (.inl ⟨_, _, rfl, rfl, ht, hinter.symm⟩) ?_
    change Run.mirrored.rel _ ((choices (Ty.unionsIn parts)).mapM _ >>= _)
      ((choices (Ty.unionsIn (parts.map env.substituted))).mapM
        (fun choice ↦ env.meetTo d (choice ++ Ty.othersIn (parts.map env.substituted))) >>= _)
    rw [hu, choices_map, ho]
    refine Run.mirrored.rel_bind (Run.mirrored.rel_mapM (S := env.Stands) ?_) fun ds ds' hds ↦ ?_
    · rw [List.forall₂_map_right_iff]
      refine List.forall₂_same.2 fun choice hc ↦ ?_
      rw [← List.map_append]
      refine hd.meet _ fun p hp ↦ ?_
      rcases Ty.mem_choice hc hp with hp | ⟨us, hus, hp⟩
      · exact hparts p hp
      · exact (hparts _ hus).toRegular.part (.inl rfl) hp
    · obtain ⟨hp, rfl⟩ := eq_map_of_stands hds
      exact hd.join ds hp

end Layers

theorem substitutes (env : Env) (d : Nat) : env.Substitutes d := by
  induction d with
  | zero =>
    have fail {α β : Type} {R : α → β → Prop} :
        Run.mirrored.rel R (Run.fail .unfounded) (Run.fail .unfounded) := .inr ⟨_, rfl, rfl⟩
    exact ⟨fun _ _ _ _ ↦ fail, fun _ _ ↦ fail, fun _ _ ↦ fail, fun _ _ ↦ fail⟩
  | succ d ih =>
    exact ⟨fun _ _ ↦ ih.subtype_succ, fun _ ↦ ih.join_succ, fun _ ↦ ih.meet_succ,
      fun _ ↦ ih.distribute_succ⟩

theorem below_substituted (hs : env.Regular s) (ht : env.Regular t) :
    env.below s t = env.below (env.substituted s) (env.substituted t) :=
  Run.rel_of_mirrored ((env.substitutes _).subtype s t hs ht)
    (decided hs.toFounded ht.toFounded (le_max_left _ _)).subtype
    (decided (founded_substituted hs.toFounded) (founded_substituted ht.toFounded) (le_max_right _ _)).subtype

/--
For subtyping, binding a variable is the same as putting its contents in its place. Of the types, and of all
contents in their reach, it is asked that variables which are parts of unions or intersections stand for plain
types.
-/
theorem subtype_substituted (hs : env.Regular s) (ht : env.Regular t) :
    (env.Free (env.substituted s) ∧ env.equal s (env.substituted s) = .ok true) ∧
    (env.Free (env.substituted t) ∧ env.equal t (env.substituted t) = .ok true) ∧
    ∃ verdict, (env.subtype s t).outcome = .ok verdict ∧
      (env.subtype (env.substituted s) (env.substituted t)).outcome = .ok verdict := by
  have replaced {t : Ty} (ht : env.Regular t) :
      env.Free (env.substituted t) ∧ env.equal t (env.substituted t) = .ok true :=
    ⟨free_substituted ht.toFounded, equal_substituted ht.toFounded⟩
  refine ⟨replaced hs, replaced ht, env.below s t, subtype_eq hs.toFounded ht.toFounded, ?_⟩
  rw [subtype_eq (founded_substituted hs.toFounded) (founded_substituted ht.toFounded),
    ← below_substituted hs ht]

theorem regular_var (hb : env.Binds v u) (hu : env.Regular u) (hw : u.Whole) (hn : ¬env.Reaches u v) :
    env.Regular (.var v) where
  toFounded := (sound_var hb ⟨hu.toFounded, hw, fun w c h hc ↦ (hu.contents w c h hc).1⟩ hn).toFounded
  plain := .node nofun nofun
  contents w c h hc := by
    rcases (reaches_var hb).1 h with rfl | h
    · cases hb.symm.trans hc
      exact ⟨hw, hu.plain⟩
    · exact hu.contents w c h hc

def procedureOfBound : Env :=
  ⟨[⟨"f", some (.proc [.var ⟨"x", some 1⟩] (.atomic .number))⟩, ⟨"x", some (.atomic .boolean)⟩], 0⟩

theorem subtype_substituted_union_of_bound :
    let s : Ty := .union [.var ⟨"f", some 0⟩, .var ⟨"x", some 1⟩]
    let t : Ty := .union [.atomic .boolean, .proc [.atomic .boolean] .any]
    procedureOfBound.Regular s ∧ procedureOfBound.Regular t ∧
    procedureOfBound.substituted s =
      .union [.proc [.atomic .boolean] (.atomic .number), .atomic .boolean] ∧
    (procedureOfBound.subtype s t).outcome = .ok true ∧
    (procedureOfBound.subtype (procedureOfBound.substituted s) (procedureOfBound.substituted t)).outcome =
      .ok true := by
  intro s t
  have procedure {param : Ty} (kind : Kind) (hp : procedureOfBound.Regular param) :
      procedureOfBound.Regular (.proc [param] (.atomic kind)) := by
    refine hp.of_vars ?_ (.node ?_ (by rintro (h | h) <;> cases h))
    · simp [Ty.vars, Ty.varsEach]
    · simp [Ty.children, hp.plain, (part_atomic procedureOfBound kind).plain]
  have hboolean := part_atomic procedureOfBound .boolean
  have hx : procedureOfBound.Part (.var ⟨"x", some 1⟩) :=
    ⟨regular_var rfl hboolean.toRegular (Ty.whole_atomic _) (by rintro ⟨_, ⟨⟩, -⟩), fun _ ↦ by decide +kernel⟩
  have hf : procedureOfBound.Part (.var ⟨"f", some 0⟩) := by
    refine ⟨regular_var rfl (procedure .number hx.toRegular) (.node Ty.noConfusion ?_) fun hr ↦ ?_,
      fun _ ↦ by decide +kernel⟩
    · exact List.forall_mem_cons.2 ⟨.node Ty.noConfusion (List.forall_mem_nil _),
        List.forall_mem_singleton.2 (Ty.whole_atomic _)⟩
    · have hbinds : procedureOfBound.Binds ⟨"x", some 1⟩ (.atomic .boolean) := rfl
      rcases (reaches_var hbinds).1 (hr.mono (List.Subset.refl _)) with he | ⟨_, hv, -⟩
      · exact absurd he (by decide)
      · cases hv
  have hs : procedureOfBound.Regular s :=
    regular_union (List.forall_mem_cons.2 ⟨hf, List.forall_mem_singleton.2 hx⟩)
  have ht : procedureOfBound.Regular t :=
    regular_union (List.forall_mem_cons.2 ⟨hboolean, List.forall_mem_singleton.2
      ⟨procedure .any hboolean.toRegular, Bool.noConfusion⟩⟩)
  obtain ⟨-, -, verdict, hverdict, hsubstituted⟩ := subtype_substituted hs ht
  have htrue : (procedureOfBound.subtype s t).outcome = .ok true := by decide +kernel
  obtain rfl : verdict = true := Except.ok.inj (hverdict.symm.trans htrue)
  exact ⟨hs, ht, by decide +kernel, hverdict, hsubstituted⟩

/--
The parts of an intersection are compared before the bindings of its variables are followed: where `x` stands
for the intersection of numbers and booleans, `number` takes the place of `x`, while in the place of `x` its
parts would stay.
-/
theorem subtype_differs_bound_intersection :
    ¬∀ (env : Env) (s t : Ty), env.Sound s → env.Sound t →
      (env.subtype s t).outcome =
        (env.subtype (env.substituted s) (env.substituted t)).outcome := by
  intro h
  let env : Env := ⟨[⟨"x", some (.inter [.atomic .number, .atomic .boolean])⟩], 0⟩
  have hx : env.Sound (.var ⟨"x", some 0⟩) := by
    refine sound_var (u := .inter [.atomic .number, .atomic .boolean]) rfl ?_ (by rintro ⟨_, ⟨⟩, -⟩)
    exact sound_inter (List.forall_mem_cons.2 ⟨sound_atomic env _,
      List.forall_mem_singleton.2 (sound_atomic env _)⟩)
  have hs : env.Sound (.inter [.atomic .number, .var ⟨"x", some 0⟩]) :=
    sound_inter (List.forall_mem_cons.2 ⟨sound_atomic env _, List.forall_mem_singleton.2 hx⟩)
  exact absurd (h env _ (.atomic .number) hs (sound_atomic env _)) (by decide +kernel)

end Env

end TypeAlgebra
