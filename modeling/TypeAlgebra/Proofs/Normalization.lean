import TypeAlgebra.Algebra.Normal
import TypeAlgebra.Proofs.Parsing

namespace TypeAlgebra

namespace Env

variable {env : Env} {s t : Ty} {ts parts : List Ty}

structure Normalizes (env : Env) (t r : Ty) : Prop where
  sound : env.Sound r
  canonical : env.Canonical r
  vars : r.vars ⊆ t.vars

theorem normalizeEach_ends {R : Ty → Ty → Prop} (h : ∀ t ∈ ts, (env.normalize t).Ends (R t)) :
    (env.normalizeEach ts).Ends (List.Forall₂ R ts) := by
  induction ts with
  | nil => exact .pure .nil
  | cons t ts ih =>
    refine (h t List.mem_cons_self).bind fun r hr ↦ ?_
    refine (ih fun s hs ↦ h s (List.mem_cons_of_mem t hs)).bind fun rs hrs ↦ ?_
    exact .pure (.cons hr hrs)

theorem forall_mem_right {R : Ty → Ty → Prop} {P : Ty → Prop} {rs : List Ty} (h : List.Forall₂ R ts rs)
    (hp : ∀ t r, R t r → P r) : ∀ r ∈ rs, P r := by
  induction h with
  | nil => exact nofun
  | cons hd _ ih =>
    intro r hr
    rcases List.mem_cons.1 hr with rfl | hr
    · exact hp _ _ hd
    · exact ih r hr

theorem Normalizes.varsEach {rs : List Ty} (h : List.Forall₂ env.Normalizes ts rs) :
    Ty.varsEach rs ⊆ Ty.varsEach ts := by
  induction h with
  | nil => exact List.Subset.refl _
  | cons hd _ ih =>
    exact fun v hv ↦ List.mem_append.2 ((List.mem_append.1 hv).imp (fun h ↦ hd.vars h) fun h ↦ ih h)

/-- A type that is no union and no intersection is canonical if its components are. -/
theorem Normalizes.of_children {r : Ty} (ht : env.Sound t) (hw : r ≠ .absent) (hu : r.isUnion = false)
    (hi : r.isInter = false) (hc : ∀ s ∈ r.children, env.Sound s ∧ env.Canonical s) (hv : r.vars ⊆ t.vars) :
    env.Normalizes t r where
  sound := ht.of_vars hv (.node hw fun s hs ↦ (hc s hs).1.whole)
  canonical := by
    refine .node (fun s hs ↦ (hc s hs).2) ?_ ?_
    · rintro parts rfl
      cases hu
    · rintro parts rfl
      cases hi
  vars := hv

theorem normalize_ends (ht : env.Sound t) : (env.normalize t).Ends (env.Normalizes t) := by
  induction t using Ty.induction_children with
  | step t ih =>
    have each {ts : List Ty} (h : ∀ s ∈ ts, s ∈ t.children) :
        (env.normalizeEach ts).Ends (List.Forall₂ env.Normalizes ts) :=
      normalizeEach_ends fun s hs ↦ ih s (h s hs) (ht.child (h s hs))
    have keep (hw : t ≠ .absent) (hc : t.children = []) (hu : t.isUnion = false) (hi : t.isInter = false) :
        env.Normalizes t t := by
      refine .of_children ht hw hu hi ?_ (List.Subset.refl _)
      rw [hc]
      exact List.forall_mem_nil _
    cases t with
    | union parts =>
      rw [normalize]
      refine (each fun s hs ↦ hs).bind fun rs hrs ↦ ?_
      have hsound := forall_mem_right hrs fun _ _ h ↦ h.sound
      have hcanon := forall_mem_right hrs fun _ _ h ↦ h.canonical
      have hfounded := (sound_union hsound).toFounded
      obtain ⟨hs, hc⟩ := joined_canonical hsound hcanon
      refine ⟨_, join_eq hfounded, hs, hc, ?_⟩
      exact List.Subset.trans (joinTo_ample hfounded).1.vars (Normalizes.varsEach hrs)
    | inter parts =>
      rw [normalize]
      refine (each fun s hs ↦ hs).bind fun rs hrs ↦ ?_
      have hsound := forall_mem_right hrs fun _ _ h ↦ h.sound
      have hcanon := forall_mem_right hrs fun _ _ h ↦ h.canonical
      have hfounded := (sound_inter hsound).toFounded
      obtain ⟨hs, hc⟩ := met_canonical hsound hcanon
      refine ⟨_, meet_eq hfounded, hs, hc, ?_⟩
      exact List.Subset.trans (meetTo_ample hfounded).1.vars (Normalizes.varsEach hrs)
    | proc params result =>
      rw [normalize]
      refine (each fun s hs ↦ List.mem_append_left _ hs).bind fun rs hrs ↦ ?_
      have hresult : result ∈ (Ty.proc params result).children := by simp [Ty.children]
      refine (ih result hresult (ht.child hresult)).bind fun r hr ↦ .pure ?_
      refine .of_children ht (by simp) rfl rfl (List.forall_mem_append.2 ⟨?_, ?_⟩) fun v hv ↦ ?_
      · exact forall_mem_right hrs fun _ _ h ↦ ⟨h.sound, h.canonical⟩
      · exact List.forall_mem_singleton.2 ⟨hr.sound, hr.canonical⟩
      · exact List.mem_append.2 ((List.mem_append.1 hv).imp (fun h ↦ Normalizes.varsEach hrs h)
          fun h ↦ hr.vars h)
    | tuple elems =>
      rw [normalize]
      refine (each fun s hs ↦ hs).bind fun rs hrs ↦ .pure (.of_children ht (by simp) rfl rfl ?_ ?_)
      · exact forall_mem_right hrs fun _ _ h ↦ ⟨h.sound, h.canonical⟩
      · exact Normalizes.varsEach hrs
    | pred inner =>
      rw [normalize]
      refine (ih inner List.mem_cons_self (ht.child List.mem_cons_self)).bind fun r hr ↦ .pure ?_
      exact .of_children ht (by simp) rfl rfl (List.forall_mem_singleton.2 ⟨hr.sound, hr.canonical⟩) hr.vars
    | absent => exact absurd rfl ht.whole.ne_absent
    | _ =>
      rw [normalize]
      exact .pure (keep (by simp) rfl rfl rfl)

theorem normalizeEach_eq {f : Ty → Ty} (h : ∀ t ∈ ts, (env.normalize t).outcome = .ok (f t)) :
    (env.normalizeEach ts).outcome = .ok (ts.map f) := by
  induction ts with
  | nil => rfl
  | cons t ts ih =>
    rw [normalizeEach, Run.outcome_bind, h t List.mem_cons_self]
    change Run.outcome (_ >>= _) = _
    rw [Run.outcome_bind, ih fun s hs ↦ h s (List.mem_cons_of_mem t hs)]
    rfl

/-- Canonical types are fixed points of normalization. -/
theorem normalize_of_canonical (ht : env.Sound t) (hc : env.Canonical t) :
    (env.normalize t).outcome = .ok t := by
  induction t using Ty.induction_children with
  | step t ih =>
    have fixed (s : Ty) (hs : s ∈ t.children) : (env.normalize s).outcome = .ok s :=
      ih s hs (ht.child hs) (hc.child hs)
    have each (ts : List Ty) (h : ∀ s ∈ ts, s ∈ t.children) :
        (env.normalizeEach ts).outcome = .ok ts := by
      rw [normalizeEach_eq (f := id) fun s hs ↦ fixed s (h s hs), List.map_id]
    cases t with
    | union parts =>
      have hs : ∀ p ∈ parts, env.Sound p := fun p hp ↦ ht.child hp
      rw [normalize, Run.outcome_bind, each parts fun s hs ↦ hs]
      change (env.join parts).outcome = _
      rw [join_eq ht.toFounded, joined_of_unionParts hs hc.unionParts]
    | inter parts =>
      have hs : ∀ p ∈ parts, env.Sound p := fun p hp ↦ ht.child hp
      rw [normalize, Run.outcome_bind, each parts fun s hs ↦ hs]
      change (env.meet parts).outcome = _
      rw [meet_eq ht.toFounded, met_of_interParts hs hc.interParts]
    | proc params result =>
      rw [normalize, Run.outcome_bind,
        each params fun s hs ↦ List.mem_append_left _ hs]
      change Run.outcome (_ >>= _) = _
      rw [Run.outcome_bind, fixed result (by simp [Ty.children])]
      rfl
    | tuple elems =>
      rw [normalize, Run.outcome_bind, each elems fun s hs ↦ hs]
      rfl
    | pred inner =>
      rw [normalize, Run.outcome_bind, fixed inner List.mem_cons_self]
      rfl
    | _ =>
      rw [normalize]
      rfl

/--
Normalizing gives canonical types and does not change them, parsing gives canonical types, and the unions,
intersections and differences of canonical types are canonical.
-/
theorem canonical_invariant (env : Env) :
    (∀ t, env.Sound t → ∃ r, (env.normalize t).outcome = .ok r ∧ env.Sound r ∧ env.Canonical r ∧
        (env.normalize r).outcome = .ok r) ∧
      (∀ text before t after, (Step.parse text).run before = (.ok t, after) →
        after.env.Sound t ∧ after.env.Canonical t) ∧
      (∀ ts, (∀ t ∈ ts, env.Sound t ∧ env.Canonical t) →
        (∃ r, (env.join ts).outcome = .ok r ∧ env.Sound r ∧ env.Canonical r) ∧
          ∃ r, (env.meet ts).outcome = .ok r ∧ env.Sound r ∧ env.Canonical r) ∧
      ∀ s t, env.Settled s → env.Settled t → ∃ r, (env.diff s t).outcome = .ok r ∧ env.Settled r := by
  refine ⟨fun t ht ↦ ?_, fun text before t after h ↦ ?_, fun ts hts ↦ ⟨?_, ?_⟩, fun s t ↦ diff_settled⟩
  · obtain ⟨r, hr, hn⟩ := normalize_ends ht
    exact ⟨r, hr, hn.sound, hn.canonical, normalize_of_canonical hn.sound hn.canonical⟩
  · obtain ⟨-, hlegible⟩ := Step.parse_yields text before t after h
    exact ⟨hlegible.settled.sound, hlegible.settled.canonical⟩
  · have hs := fun t ht ↦ (hts t ht).1
    exact ⟨_, join_eq (sound_union hs).toFounded, joined_canonical hs fun t ht ↦ (hts t ht).2⟩
  · have hs := fun t ht ↦ (hts t ht).1
    exact ⟨_, meet_eq (sound_inter hs).toFounded, met_canonical hs fun t ht ↦ (hts t ht).2⟩

-- A type with a bound variable that is not canonical, and the difference of two types of which one is parsed.
theorem canonical_invariant_bound_variable :
    (∃ r, ((Env.mk [⟨"x", some .any⟩, ⟨"y", none⟩] 0).normalize
        (.inter [.var ⟨"x", some 0⟩, .union [.never, .var ⟨"y", some 1⟩, .atomic .number]])).outcome = .ok r ∧
      (Env.mk [⟨"x", some .any⟩, ⟨"y", none⟩] 0).Canonical r) ∧
    ∃ r, ((Env.mk [⟨"x", some .any⟩, ⟨"y", none⟩] 0).diff
        (.union [.atomic .number, .var ⟨"y", some 1⟩]) (.atomic .number)).outcome = .ok r ∧
      (Env.mk [⟨"x", some .any⟩, ⟨"y", none⟩] 0).Settled r := by
  obtain ⟨hnormalize, hparse, -, hdiff⟩ := canonical_invariant ⟨[⟨"x", some .any⟩, ⟨"y", none⟩], 0⟩
  have hx : (Env.mk [⟨"x", some .any⟩, ⟨"y", none⟩] 0).Sound (.var ⟨"x", some 0⟩) :=
    sound_var rfl (sound_atomic _ .any) (by rintro ⟨_, ⟨⟩, -⟩)
  have hy : (Env.mk [⟨"x", some .any⟩, ⟨"y", none⟩] 0).Sound (.var ⟨"y", some 1⟩) :=
    Free.sound (by decide +kernel) (.node nofun nofun)
  have hu : (Env.mk [⟨"x", some .any⟩, ⟨"y", none⟩] 0).Sound
      (.union [.never, .var ⟨"y", some 1⟩, .atomic .number]) :=
    sound_union (by simp only [List.forall_mem_cons]; exact ⟨sound_atomic _ _, hy, sound_atomic _ _, nofun⟩)
  obtain ⟨r, hr, -, hc, -⟩ := hnormalize (.inter [.var ⟨"x", some 0⟩,
    .union [.never, .var ⟨"y", some 1⟩, .atomic .number]])
    (sound_inter (List.forall_mem_cons.2 ⟨hx, List.forall_mem_singleton.2 hu⟩))
  obtain ⟨hs, hc'⟩ := hparse "(union y number)" { cells := [⟨"x", some .any⟩] }
    (.union [.atomic .number, .var ⟨"y", some 1⟩]) { cells := [⟨"x", some .any⟩, ⟨"y", none⟩] }
    (Prod.ext (by decide +kernel) (by decide +kernel))
  exact ⟨⟨r, hr, hc⟩, hdiff _ _ ⟨by decide +kernel, hs.whole, hc'⟩ (settled_atomic _ _)⟩

end Env

end TypeAlgebra
