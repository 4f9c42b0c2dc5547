import TypeAlgebra.Proofs.Detachment

namespace TypeAlgebra

def Fault.Foreign (e : Fault) : Prop :=
  ∃ name, e = .foreign name

namespace Cells

variable {cells : Cells} {v : Var}

theorem foreign_of_contents {e : Fault} (h : cells.contents v = .error e) : e.Foreign := by
  rw [contents_eq_map] at h
  unfold cellOf at h
  split at h
  · cases h
  · split at h
    · split at h
      · cases h
      · exact ⟨v.name, (Except.error.inj h).symm⟩
    · exact ⟨v.name, (Except.error.inj h).symm⟩

def rename (f : Var → Var) (cells : Cells) : Cells :=
  cells.map fun cell ↦ ⟨cell.name, cell.contents.map (Ty.rename f)⟩

theorem contents_rename (f : Var → Var) (cells : Cells) (v : Var) :
    (cells.rename f).contents v = (cells.contents v).map (Option.map (Ty.rename f)) := by
  rw [contents_eq_map, contents_eq_map, rename]
  unfold cellOf
  cases v.cell with
  | none => rfl
  | some i =>
    simp only [List.getElem?_map]
    cases cells[i]? with
    | none => rfl
    | some cell =>
      simp only [Option.map_some]
      split <;> rfl

theorem size_rename (f : Var → Var) (cells : Cells) : (cells.rename f).size = cells.size := by
  have hcell (cell : Cell) : ((cell.contents.map (Ty.rename f)).map Ty.size).getD 0 =
      (cell.contents.map Ty.size).getD 0 := by
    cases cell.contents with
    | none => rfl
    | some t => exact t.size_rename f
  simp only [size, rename, List.foldl_map, hcell]

end Cells

namespace Env

variable {env : Env} {s t u : Ty} {v w : Var}

/-- The variable itself if it can be looked up, and else the variable of the same name without a cell. -/
def own (env : Env) (v : Var) : Var :=
  match env.cells.contents v with
  | .ok _ => v
  | .error _ => v.detached

theorem own_name (env : Env) (v : Var) : (env.own v).name = v.name := by
  unfold own
  split <;> rfl

theorem own_of_ok {c : Option Ty} (h : env.cells.contents v = .ok c) : env.own v = v := by
  rw [own, h]

/-- The environment in which the variables that cannot be looked up are unbound. -/
def enclosed (env : Env) : Env :=
  ⟨env.cells.rename env.own, env.limit⟩

theorem contents_enclosed (env : Env) (v : Var) :
    env.enclosed.cells.contents (env.own v) =
      match env.cells.contents v with
      | .ok c => .ok (c.map (Ty.rename env.own))
      | .error _ => .ok none := by
  unfold own
  cases h : env.cells.contents v with
  | error e => rfl
  | ok c =>
    rw [enclosed, Cells.contents_rename, h]
    rfl

/-- A variable is bound in the enclosed environment only if it is bound already. -/
theorem Binds.of_enclosed (h : env.enclosed.Binds (env.own v) u) :
    env.own v = v ∧ ∃ c, env.Binds v c ∧ u = c.rename env.own := by
  rw [Binds, contents_enclosed] at h
  cases hc : env.cells.contents v with
  | error e => simp [hc] at h
  | ok c =>
    rw [hc] at h
    cases c with
    | none => cases h
    | some c => exact ⟨own_of_ok hc, c, hc, (Option.some.inj (Except.ok.inj h)).symm⟩

theorem Reaches.of_enclosed (h : env.enclosed.Reaches (t.rename env.own) v) :
    ∃ w, v = env.own w ∧ env.Reaches t w := by
  obtain ⟨x, hx, hl⟩ := h
  rw [Ty.vars_rename] at hx
  induction hl with
  | refl =>
    obtain ⟨w, hw, rfl⟩ := List.mem_map.1 hx
    exact ⟨w, rfl, reaches_self hw⟩
  | tail _ hl ih =>
    obtain ⟨w, rfl, hr⟩ := ih
    obtain ⟨u, hb, hv⟩ := hl
    obtain ⟨-, c, hc, rfl⟩ := hb.of_enclosed
    rw [Ty.vars_rename] at hv
    obtain ⟨y, hy, rfl⟩ := List.mem_map.1 hv
    exact ⟨y, rfl, hr.trans_binds hc (reaches_self hy)⟩

/-- No variable is in reach of its own contents. -/
def Acyclic (env : Env) : Prop :=
  ∀ v t, env.Binds v t → ¬env.Reaches t v

theorem Acyclic.founded (h : env.Acyclic) (t : Ty) : env.enclosed.Founded (t.rename env.own) := by
  refine ⟨fun v hv ↦ ?_, fun v u hv hb hr ↦ ?_⟩
  · obtain ⟨w, rfl, -⟩ := hv.of_enclosed
    rw [contents_enclosed]
    split
    · exact ⟨_, rfl⟩
    · exact ⟨_, rfl⟩
  · obtain ⟨w, rfl, -⟩ := hv.of_enclosed
    obtain ⟨hw, c, hc, rfl⟩ := hb.of_enclosed
    obtain ⟨x, hx, hr⟩ := hr.of_enclosed
    rw [hx] at hb
    rw [hb.of_enclosed.1, hw] at hx
    exact h w c hc (hx ▸ hr)

theorem Acyclic.founded_each (h : env.Acyclic) (ts : List Ty) :
    ∀ t ∈ ts.map (Ty.rename env.own), env.enclosed.Founded t :=
  List.forall_mem_map.2 fun t _ ↦ h.founded t

theorem follow_enclosed {steps : Nat} (h : env.enclosed.cells.follow steps (t.rename env.own) = .ok u) :
    (Coupling.excused Fault.Foreign).rel (Renamed env.own fun _ ↦ True)
      (env.cells.follow steps t) (.ok u) := by
  induction steps generalizing t with
  | zero => cases h
  | succ steps ih =>
    have stay (ht : env.cells.follow (steps + 1) t = .ok t) (hu : t.rename env.own = u) :
        (Coupling.excused Fault.Foreign).rel (Renamed env.own fun _ ↦ True)
          (env.cells.follow (steps + 1) t) (.ok u) :=
      .inr (.inl ⟨t, u, ht, rfl, fun _ _ ↦ trivial, hu.symm⟩)
    cases t with
    | var v =>
      rw [Ty.rename, Cells.follow, contents_enclosed] at h
      cases hc : env.cells.contents v with
      | error e =>
        rw [Cells.follow, hc]
        exact .inl ⟨e, Cells.foreign_of_contents hc, rfl⟩
      | ok c =>
        rw [hc] at h
        cases c with
        | none => exact stay (by rw [Cells.follow, hc]; rfl) (Except.ok.inj h)
        | some c =>
          rw [Cells.follow, hc]
          exact ih h
    | _ => exact stay rfl (Except.ok.inj h)

/-- What the algebra does with all variables at home it does in the environment itself, as long as it does not
look up a variable that is foreign to it. -/
theorem Acyclic.enclosure (h : env.Acyclic) :
    Simulation Fault.Foreign env env.enclosed env.own (fun _ ↦ True) 0 where
  name := own_name env
  limit := rfl
  deref t _ := by
    have hd := (resolved_spec (h.founded t)).1
    rw [hd]
    cases t with
    | var v =>
      refine follow_enclosed ?_
      rw [← hd, deref, Ty.rename, Cells.deref, enclosed, Cells.rename, List.length_map]
    | _ => exact .inr (.inl ⟨_, _, rfl, hd.symm, fun _ _ ↦ trivial, rfl⟩)
  exhausted := .inl rfl

theorem depth_enclosed (env : Env) (ts : List Ty) :
    env.enclosed.depth (ts.map (Ty.rename env.own)) = env.depth ts := by
  rw [depth, depth, enclosed, Cells.size_rename, ← Ty.renameEach_eq, Ty.sizeEach_rename]

end Env

end TypeAlgebra
