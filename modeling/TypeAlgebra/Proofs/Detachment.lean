import TypeAlgebra.Proofs.Difference
import TypeAlgebra.Proofs.Simulation

namespace TypeAlgebra

def Var.detached (v : Var) : Var :=
  ⟨v.name, none⟩

namespace Ty

/-- The type with the names of its variables only. -/
def detached (t : Ty) : Ty :=
  t.rename Var.detached

theorem detached_union (parts : List Ty) : (union parts).detached = .union (parts.map detached) :=
  rename_union Var.detached parts

theorem detached_inter (parts : List Ty) : (inter parts).detached = .inter (parts.map detached) :=
  rename_inter Var.detached parts

end Ty

namespace Env

def vacant (limit : Int64) : Env :=
  ⟨[], limit⟩

variable {env : Env} {s t : Ty} {ts parts : List Ty}

theorem free_detached (limit : Int64) (t : Ty) : (vacant limit).Free t.detached := by
  intro v hv
  rw [Ty.detached, Ty.vars_rename] at hv
  obtain ⟨w, -, rfl⟩ := List.mem_map.1 hv
  rfl

def Detaches (env : Env) (t u : Ty) : Prop :=
  env.Free t ∧ u = t.detached

theorem exceeds_detached (env : Env) (unions : List (List Ty)) :
    (vacant env.limit).exceeds (unions.map (List.map Ty.detached)) = env.exceeds unions := by
  simp only [exceeds, List.map_map, Function.comp_def, List.length_map]
  rfl

theorem meetFactors_detached (ts : List Ty) :
    meetFactors (ts.map Ty.detached) = (meetFactors ts).map Ty.detached :=
  meetFactors_rename Var.detached ts

/-- Outside of its environment a type without bound variables is what it was. -/
theorem detachment (env : Env) :
    Simulation (fun _ ↦ False) env (vacant env.limit) Var.detached
      (fun v ↦ env.cells.contents v = .ok none) 0 where
  name _ := rfl
  limit := rfl
  deref t ht := .inr (.inl ⟨t, t.detached, Free.deref ht, (free_detached _ t).deref, ht, rfl⟩)
  exhausted := .inl rfl

theorem formTo_detached (d : Nat) (ht : env.Free t) :
    env.formTo d t = (vacant env.limit).formTo d t.detached := by
  rcases (detachment env).formTo d ht with ⟨_ | _, ⟨⟩, -⟩ | h
  exact Coupling.mirrored_eq_iff.1 h

theorem sortKeyTo_detached (d : Nat) (ht : env.Free t) :
    env.sortKeyTo d t = (vacant env.limit).sortKeyTo d t.detached :=
  Coupling.mirrored_eq_iff.1 (((detachment env).sortKeyTo d ht).resolve_left nofun)

structure Mirrors (env : Env) (d : Nat) : Prop where
  subtype : ∀ s t, env.Free s → env.Free t →
    Run.mirrored.rel Eq (env.subtypeTo d s t) ((vacant env.limit).subtypeTo d s.detached t.detached)
  join : ∀ ts, (∀ t ∈ ts, env.Free t) →
    Run.mirrored.rel env.Detaches (env.joinTo d ts) ((vacant env.limit).joinTo d (ts.map Ty.detached))
  meet : ∀ ts, (∀ t ∈ ts, env.Free t) →
    Run.mirrored.rel env.Detaches (env.meetTo d ts) ((vacant env.limit).meetTo d (ts.map Ty.detached))
  distribute : ∀ t, env.Free t →
    Run.mirrored.rel env.Detaches (env.distributeTo d t)
      ((vacant env.limit).distributeTo d t.detached)

theorem mirrors (env : Env) (d : Nat) : env.Mirrors d := by
  have hd := (detachment env).simulates d
  have mirrored {α β : Type} {R : α → β → Prop} {x : Run α} {y : Run β}
      (h : (Run.excused fun _ ↦ False).rel R x y) : Run.mirrored.rel R x y := h.resolve_left nofun
  exact ⟨fun s t hs ht ↦ mirrored (hd.subtype s t hs ht), fun ts hts ↦ mirrored (hd.join ts hts),
    fun ts hts ↦ mirrored (hd.meet ts hts), fun t ht ↦ mirrored (hd.distribute t ht)⟩

theorem below_detached (hs : env.Free s) (ht : env.Free t) :
    env.below s t = (vacant env.limit).below s.detached t.detached := by
  have hs' := (free_detached env.limit s).founded
  have ht' := (free_detached env.limit t).founded
  exact Run.rel_of_mirrored ((mirrors env _).subtype s t hs ht)
    (decided hs.founded ht.founded (le_max_left _ _)).subtype
    (decided hs' ht' (le_max_right _ _)).subtype

theorem joined_detached (hts : ∀ t ∈ ts, env.Free t) :
    (env.joined ts).detached = (vacant env.limit).joined (ts.map Ty.detached) := by
  have hf' : (vacant env.limit).Free (.union (ts.map Ty.detached)) :=
    free_union.2 (List.forall_mem_map.2 fun t _ ↦ free_detached _ t)
  exact (Run.rel_of_mirrored ((mirrors env _).join ts hts)
    ((joinTo_ample (free_union.2 hts).founded).2 _ (le_max_left _ _))
    ((joinTo_ample hf'.founded).2 _ (le_max_right _ _))).2.symm

theorem met_detached (hts : ∀ t ∈ ts, env.Free t) :
    (env.met ts).detached = (vacant env.limit).met (ts.map Ty.detached) := by
  have hf' : (vacant env.limit).Free (.inter (ts.map Ty.detached)) :=
    free_inter.2 (List.forall_mem_map.2 fun t _ ↦ free_detached _ t)
  exact (Run.rel_of_mirrored ((mirrors env _).meet ts hts)
    ((meetTo_ample (free_inter.2 hts).founded).2 _ (le_max_left _ _))
    ((meetTo_ample hf'.founded).2 _ (le_max_right _ _))).2.symm

theorem form_detached (ht : env.Free t) : env.form t = (vacant env.limit).form t.detached := by
  have hl := le_max_left (env.rank t) ((vacant env.limit).rank t.detached)
  have hr := le_max_right (env.rank t) ((vacant env.limit).rank t.detached)
  rw [← formTo_eq_form ht.founded (Nat.lt_succ_of_le hl),
    ← formTo_eq_form (free_detached env.limit t).founded (Nat.lt_succ_of_le hr), formTo_detached _ ht]

theorem key_detached (ht : env.Free t) : env.key t = (vacant env.limit).key t.detached := by
  have hl := le_max_left (env.rank t) ((vacant env.limit).rank t.detached)
  have hr := le_max_right (env.rank t) ((vacant env.limit).rank t.detached)
  have h := sortKeyTo_eq_key ht.founded (Nat.lt_succ_of_le hl)
  rw [sortKeyTo_detached _ ht,
    sortKeyTo_eq_key (free_detached env.limit t).founded (Nat.lt_succ_of_le hr)] at h
  exact (Except.ok.inj h).symm

end Env

end TypeAlgebra
