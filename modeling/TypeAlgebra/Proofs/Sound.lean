import TypeAlgebra.Proofs.Equations

namespace TypeAlgebra

namespace Ty

inductive Whole : Ty → Prop
  | node {t : Ty} : t ≠ absent → (∀ s ∈ t.children, s.Whole) → t.Whole

variable {s t : Ty}

theorem Whole.child (ht : t.Whole) (h : s ∈ t.children) : s.Whole := by
  obtain ⟨-, hc⟩ := ht
  exact hc s h

theorem Whole.ne_absent (ht : t.Whole) : t ≠ absent := by
  obtain ⟨h, -⟩ := ht
  exact h

theorem whole_atomic (kind : Kind) : (atomic kind).Whole :=
  .node nofun nofun

theorem exists_formBy {f : Ty → Except Failure (List Tree)} (ht : t.Whole)
    (h : ∀ s ∈ t.children, ∃ trees, f s = .ok trees) : ∃ trees, t.formBy f = .ok trees := by
  have each {ts : List Ty} (h : ∀ s ∈ ts, ∃ trees, f s = .ok trees) :
      ∃ forms, ts.mapM f = .ok forms := by
    induction ts with
    | nil => exact ⟨[], rfl⟩
    | cons t ts ih =>
      obtain ⟨trees, ht⟩ := h t List.mem_cons_self
      obtain ⟨forms, hs⟩ := ih fun s hs ↦ h s (List.mem_cons_of_mem t hs)
      exact ⟨trees :: forms, by rw [List.mapM_cons, ht, hs]; rfl⟩
  cases t with
  | absent => exact absurd rfl ht.ne_absent
  | proc params result =>
    obtain ⟨forms, hp⟩ := each fun s hs ↦ h s (List.mem_append_left _ hs)
    obtain ⟨trees, hr⟩ := h result (by simp [children])
    exact ⟨Form.proc forms trees, by rw [formBy, hp, hr]; rfl⟩
  | tuple elems =>
    obtain ⟨forms, he⟩ := each h
    exact ⟨Form.tuple forms, by rw [formBy, show elems.mapM f = _ from he]; rfl⟩
  | union parts =>
    obtain ⟨forms, he⟩ := each h
    exact ⟨[Form.union forms], by rw [formBy, show parts.mapM f = _ from he]; rfl⟩
  | inter parts =>
    obtain ⟨forms, he⟩ := each h
    exact ⟨[Form.inter forms], by rw [formBy, show parts.mapM f = _ from he]; rfl⟩
  | pred inner =>
    obtain ⟨trees, hi⟩ := h inner List.mem_cons_self
    exact ⟨[Form.pred trees], by rw [formBy, hi]; rfl⟩
  | _ => exact ⟨_, rfl⟩

/-- Types that are built alike are written alike if their components are. -/
theorem Alike.formBy_eq {f : Ty → Except Failure (List Tree)} {R : Ty → Ty → Prop}
    (h : Alike R s t) (hf : ∀ a ∈ s.children, ∀ b ∈ t.children, R a b → f a = f b) :
    s.formBy f = t.formBy f := by
  have each {ss ts : List Ty} (hp : List.Forall₂ R ss ts)
      (h : ∀ a ∈ ss, ∀ b ∈ ts, R a b → f a = f b) : ss.mapM f = ts.mapM f := by
    induction hp with
    | nil => rfl
    | cons hd _ ih =>
      rw [List.mapM_cons, List.mapM_cons, h _ List.mem_cons_self _ List.mem_cons_self hd,
        ih fun a ha b hb ↦ h a (List.mem_cons_of_mem _ ha) b (List.mem_cons_of_mem _ hb)]
  cases h with
  | absent => rfl
  | atomic kind => rfl
  | var hn => rw [formBy, formBy, hn]
  | proc hp hr =>
    rw [formBy, formBy, each hp fun a ha b hb ↦
        hf a (List.mem_append_left _ ha) b (List.mem_append_left _ hb),
      hf _ (by simp [children]) _ (by simp [children]) hr]
  | empty => rfl
  | tuple h => rw [formBy, formBy, each h hf]
  | union h => rw [formBy, formBy, each h hf]
  | inter h => rw [formBy, formBy, each h hf]
  | pred h => rw [formBy, formBy, hf _ List.mem_cons_self _ List.mem_cons_self h]

end Ty

namespace Env

/-- A founded type that is whole, with all contents in its reach. -/
structure Sound (env : Env) (t : Ty) : Prop extends env.Founded t where
  whole : t.Whole
  contents : ∀ v u, env.Reaches t v → env.Binds v u → u.Whole

variable {env : Env} {s t u : Ty} {v : Var} {ts : List Ty}

theorem Sound.of_vars (ht : env.Sound t) (h : s.vars ⊆ t.vars) (hs : s.Whole) : env.Sound s where
  toFounded := ht.toFounded.of_vars h
  whole := hs
  contents v u hv := ht.contents v u (hv.mono h)

theorem Sound.child (ht : env.Sound t) (h : s ∈ t.children) : env.Sound s :=
  ht.of_vars (fun _ ↦ Ty.mem_vars_of_child h) (ht.whole.child h)

theorem sound_atomic (env : Env) (kind : Kind) : env.Sound (.atomic kind) where
  owned _ h := by obtain ⟨_, h, -⟩ := h; cases h
  acyclic _ _ h := by obtain ⟨_, h, -⟩ := h; cases h
  whole := Ty.whole_atomic kind
  contents _ _ h := by obtain ⟨_, h, -⟩ := h; cases h

theorem sound_union (h : ∀ t ∈ ts, env.Sound t) : env.Sound (.union ts) where
  toFounded := founded_union.2 fun t ht ↦ (h t ht).toFounded
  whole := .node nofun fun t ht ↦ (h t ht).whole
  contents v u hv hb := by
    obtain ⟨t, ht, hr⟩ := reaches_union.1 hv
    exact (h t ht).contents v u hr hb

theorem sound_inter (h : ∀ t ∈ ts, env.Sound t) : env.Sound (.inter ts) :=
  (sound_union h).of_vars (List.Subset.refl _) (.node nofun fun t ht ↦ (h t ht).whole)

theorem reaches_var (hb : env.Binds v u) {w : Var} : env.Reaches (.var v) w ↔ w = v ∨ env.Reaches u w := by
  constructor
  · rintro ⟨x, hx, hl⟩
    obtain rfl := List.mem_singleton.1 hx
    rcases hl.cases_head with rfl | ⟨y, ⟨c, hc, hy⟩, hl⟩
    · exact .inl rfl
    · cases hc.symm.trans hb
      exact .inr ⟨y, hy, hl⟩
  · have hv : env.Reaches (.var v) v := reaches_self (List.mem_singleton_self v)
    rintro (rfl | h)
    · exact hv
    · exact hv.trans_binds hb h

/-- A variable is founded if it is bound to a founded type that does not lead back to it. -/
theorem founded_var (hb : env.Binds v u) (hu : env.Founded u) (hn : ¬env.Reaches u v) : env.Founded (.var v) where
  owned w hw := by
    rcases (reaches_var hb).1 hw with rfl | h
    · exact ⟨_, hb⟩
    · exact hu.owned w h
  acyclic w c hw hc := by
    rcases (reaches_var hb).1 hw with rfl | h
    · cases hb.symm.trans hc
      exact hn
    · exact hu.acyclic w c h hc

theorem sound_var (hb : env.Binds v u) (hu : env.Sound u) (hn : ¬env.Reaches u v) : env.Sound (.var v) where
  toFounded := founded_var hb hu.toFounded hn
  whole := .node nofun nofun
  contents w c hw hc := by
    rcases (reaches_var hb).1 hw with rfl | h
    · cases hb.symm.trans hc
      exact hu.whole
    · exact hu.contents w c h hc

theorem follow_sound {steps : Nat} (ht : env.Sound t) (h : env.cells.follow steps t = .ok u) :
    env.Sound u := by
  induction steps generalizing t with
  | zero => cases h
  | succ steps ih =>
    cases t with
    | var v =>
      have hv : env.Reaches (.var v) v := reaches_self (List.mem_singleton_self v)
      obtain ⟨c, hc⟩ := ht.owned v hv
      rw [Cells.follow, hc] at h
      cases c with
      | none =>
        cases h
        exact ht
      | some w =>
        refine ih ⟨ht.toFounded.contents hc, ht.contents v w hv hc, fun x y hx ↦ ?_⟩ h
        exact ht.contents x y (hv.trans_binds hc hx)
    | _ =>
      cases h
      exact ht

theorem Sound.resolved (ht : env.Sound t) : env.Sound (env.resolved t) := by
  have h := (resolved_spec ht.toFounded).1
  cases t with
  | var v => exact follow_sound ht h
  | _ => exact ht

theorem exists_form (ht : env.Sound t) : ∃ trees, env.form t = .ok trees := by
  induction hn : env.rank t using Nat.strongRecOn generalizing t with
  | ind n ih =>
    rw [form_eq ht.toFounded]
    refine Ty.exists_formBy ht.resolved.whole fun s hs ↦ ih (env.rank s) ?_ (ht.resolved.child hs) rfl
    exact hn ▸ (rank_lt_of_child env hs).trans_le (resolved_spec ht.toFounded).2.2.2

theorem form_eq_of_same (hs : env.Founded s) (ht : env.Founded t) (h : env.same s t = true) :
    env.form s = env.form t := by
  induction hn : env.rank s using Nat.strongRecOn generalizing s t with
  | ind n ih =>
    rw [same_eq hs ht] at h
    rw [form_eq hs, form_eq ht]
    refine (Ty.equalBy_iff.1 h).formBy_eq fun a ha b hb hab ↦ ?_
    refine ih (env.rank a) ?_ (hs.resolved.child ha) (ht.resolved.child hb) hab rfl
    exact hn ▸ (rank_lt_of_child env ha).trans_le (resolved_spec hs).2.2.2

theorem key_eq_of_same (hs : env.Sound s) (ht : env.Founded t) (h : env.same s t = true) :
    env.key s = env.key t := by
  obtain ⟨trees, hf⟩ := exists_form hs
  rw [key_of_form hs.toFounded hf, key_of_form ht (form_eq_of_same hs.toFounded ht h ▸ hf)]

theorem same_refl (ht : env.Founded t) : env.same t t = true := by
  induction hn : env.rank t using Nat.strongRecOn generalizing t with
  | ind n ih =>
    rw [same_eq ht ht]
    refine Ty.equalBy_iff.2 (.refl fun s hs ↦ ih (env.rank s) ?_ (ht.resolved.child hs) rfl)
    exact hn ▸ (rank_lt_of_child env hs).trans_le (resolved_spec ht).2.2.2

/-- Unrelated types are ordered by their texts. -/
theorem ordering_eq_compare (hs : env.Sound s) (ht : env.Sound t)
    (h : s = t ∨ Apart env.below s t) (general : Ordering) :
    env.ordering general s t = compareOn env.key s t := by
  unfold ordering compareOn
  by_cases he : env.same s t = true
  · rw [if_pos he, key_eq_of_same hs ht.toFounded he]
    exact (Std.ReflOrd.compare_self).symm
  · rcases h with rfl | h
    · exact absurd (same_refl hs.toFounded) he
    · rw [if_neg he, h.1, h.2]
      rfl

end Env

end TypeAlgebra
