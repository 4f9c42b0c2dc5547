import TypeAlgebra.Algebra.Env
import TypeAlgebra.Proofs.Structure
import Mathlib.Algebra.BigOperators.Group.Finset.Basic
import Mathlib.Algebra.Order.BigOperators.Group.Finset
import Mathlib.Logic.Relation

namespace TypeAlgebra

namespace Cells

variable {cells : Cells} {v : Var} {c : Option Ty}

theorem contents_eq_map (cells : Cells) (v : Var) :
    cells.contents v = (cells.cellOf v).map (·.bind (·.contents)) := by
  unfold contents
  cases cells.cellOf v <;> rfl

/-- A variable without a cell is unbound; one with a cell is looked up there, under its name. -/
theorem contents_eq_ok_iff : cells.contents v = .ok c ↔
    (v.cell = none ∧ c = none) ∨ ∃ i, v.cell = some i ∧ cells[i]? = some ⟨v.name, c⟩ := by
  rw [contents_eq_map]
  unfold cellOf
  cases v.cell with
  | none => simp [Except.map, eq_comm]
  | some i =>
    cases hi : cells[i]? with
    | none => simp [hi, Except.map]
    | some cell =>
      obtain ⟨name, contents⟩ := cell
      by_cases hn : name = v.name <;> simp [hi, hn, Except.map]

theorem getElem?_of_contents {i : Nat} (h : cells.contents v = .ok c) (hi : v.cell = some i) :
    cells[i]? = some ⟨v.name, c⟩ := by
  rcases contents_eq_ok_iff.1 h with ⟨hn, -⟩ | ⟨j, hj, hc⟩
  · rw [hn] at hi
    cases hi
  · rw [hi] at hj
    cases hj
    exact hc

end Cells

namespace Env

variable (env : Env)

def Binds (v : Var) (t : Ty) : Prop :=
  env.cells.contents v = .ok (some t)

def Leads (v w : Var) : Prop :=
  ∃ t, env.Binds v t ∧ w ∈ t.vars

/-- The type mentions `v`, or it mentions a variable through whose contents one comes to `v`. -/
def Reaches (t : Ty) (v : Var) : Prop :=
  ∃ u ∈ t.vars, Relation.ReflTransGen env.Leads u v

/-- All variables in reach have their cells here, and none is in reach of its own contents. -/
structure Founded (t : Ty) : Prop where
  owned : ∀ v, env.Reaches t v → ∃ contents, env.cells.contents v = .ok contents
  acyclic : ∀ v u, env.Reaches t v → env.Binds v u → ¬env.Reaches u v

variable {env} {s t u : Ty} {v w : Var}

theorem Reaches.mono (h : s.vars ⊆ t.vars) (hr : env.Reaches s v) : env.Reaches t v := by
  obtain ⟨u, hu, hl⟩ := hr
  exact ⟨u, h hu, hl⟩

theorem reaches_self (h : v ∈ t.vars) : env.Reaches t v :=
  ⟨v, h, .refl⟩

theorem Reaches.trans_binds (h : env.Reaches t v) (hb : env.Binds v u) (hr : env.Reaches u w) :
    env.Reaches t w := by
  obtain ⟨x, hx, hxv⟩ := h
  obtain ⟨y, hy, hyw⟩ := hr
  exact ⟨x, hx, hxv.trans (.head ⟨u, hb, hy⟩ hyw)⟩

theorem reaches_union {ts : List Ty} : env.Reaches (.union ts) v ↔ ∃ t ∈ ts, env.Reaches t v := by
  simp only [Reaches, Ty.vars, Ty.mem_varsEach]
  constructor
  · rintro ⟨u, ⟨t, ht, hu⟩, hl⟩
    exact ⟨t, ht, u, hu, hl⟩
  · rintro ⟨t, ht, u, hu, hl⟩
    exact ⟨u, ⟨t, ht, hu⟩, hl⟩

theorem Founded.of_reaches (ht : env.Founded t) (h : ∀ v, env.Reaches s v → env.Reaches t v) :
    env.Founded s :=
  ⟨fun v hv ↦ ht.owned v (h v hv), fun v u hv ↦ ht.acyclic v u (h v hv)⟩

theorem Founded.of_vars (ht : env.Founded t) (h : s.vars ⊆ t.vars) : env.Founded s :=
  ht.of_reaches fun _ ↦ Reaches.mono h

theorem Founded.child (ht : env.Founded t) (h : s ∈ t.children) : env.Founded s :=
  ht.of_vars fun _ ↦ Ty.mem_vars_of_child h

theorem Founded.contents (ht : env.Founded (.var v)) (h : env.Binds v u) : env.Founded u :=
  ht.of_reaches fun _ ↦ (reaches_self (List.mem_singleton_self v)).trans_binds h

theorem founded_of_children (hv : t.isVar = false) (h : ∀ s ∈ t.children, env.Founded s) : env.Founded t := by
  have child (v : Var) (hr : env.Reaches t v) : ∃ s ∈ t.children, env.Reaches s v := by
    obtain ⟨u, hu, hl⟩ := hr
    rcases Ty.mem_vars_iff.1 hu with he | ⟨s, hs, hus⟩
    · rw [he] at hv
      cases hv
    · exact ⟨s, hs, u, hus, hl⟩
  refine ⟨fun v hr ↦ ?_, fun v u hr ↦ ?_⟩
  · obtain ⟨s, hs, hr⟩ := child v hr
    exact (h s hs).owned v hr
  · obtain ⟨s, hs, hr⟩ := child v hr
    exact (h s hs).acyclic v u hr

theorem founded_union {ts : List Ty} : env.Founded (.union ts) ↔ ∀ t ∈ ts, env.Founded t :=
  ⟨fun h _ ht ↦ h.child ht, fun h ↦ founded_of_children rfl h⟩

theorem founded_inter {ts : List Ty} : env.Founded (.inter ts) ↔ ∀ t ∈ ts, env.Founded t :=
  ⟨fun h _ ht ↦ h.child ht, fun h ↦ founded_of_children rfl h⟩

/-- A variable that has its cell here is known by its cell. -/
theorem eq_of_cell_eq {i : Nat} {c d : Option Ty} (hv : env.cells.contents v = .ok c)
    (hw : env.cells.contents w = .ok d) (hi : v.cell = some i) (hj : w.cell = some i) : v = w := by
  have hc := Cells.getElem?_of_contents hv hi
  rw [Cells.getElem?_of_contents hw hj] at hc
  cases v
  cases w
  simp_all

theorem Binds.cell (h : env.Binds v u) :
    ∃ i cell, v.cell = some i ∧ env.cells[i]? = some cell ∧ cell.contents = some u := by
  rcases Cells.contents_eq_ok_iff.1 h with ⟨-, hc⟩ | ⟨i, hi, hc⟩
  · cases hc
  · exact ⟨i, _, hi, hc, rfl⟩

variable (env)

open Classical in
noncomputable def reach (t : Ty) : Finset Nat :=
  (Finset.range env.cells.length).filter fun i ↦ ∃ v, env.Reaches t v ∧ v.cell = some i

def load (i : Nat) : Nat :=
  ((env.cells[i]?.bind (·.contents)).map Ty.weight).getD 0

/-- It falls with every step into the type and across every binding, since all contents in reach are counted once. -/
noncomputable def rank (t : Ty) : Nat :=
  t.weight + ∑ i ∈ env.reach t, env.load i

variable {env}

theorem mem_reach {i : Nat} :
    i ∈ env.reach t ↔ i < env.cells.length ∧ ∃ v, env.Reaches t v ∧ v.cell = some i := by
  simp [reach]

theorem reach_subset (h : ∀ v, env.Reaches s v → env.Reaches t v) : env.reach s ⊆ env.reach t := by
  intro i hi
  obtain ⟨hl, v, hv, hc⟩ := mem_reach.1 hi
  exact mem_reach.2 ⟨hl, v, h v hv, hc⟩

theorem reach_subset_range (env : Env) (t : Ty) : env.reach t ⊆ Finset.range env.cells.length :=
  fun _ hi ↦ Finset.mem_range.2 (mem_reach.1 hi).1

theorem card_reach_le (env : Env) (t : Ty) : (env.reach t).card ≤ env.cells.length :=
  (Finset.card_le_card (reach_subset_range env t)).trans_eq (Finset.card_range _)

theorem weight_le_rank (env : Env) (t : Ty) : t.weight ≤ env.rank t :=
  Nat.le_add_right _ _

theorem rank_pos (env : Env) (t : Ty) : 0 < env.rank t :=
  t.weight_pos.trans_le (weight_le_rank env t)

theorem rank_le_of_vars (hw : s.weight ≤ t.weight) (h : s.vars ⊆ t.vars) :
    env.rank s ≤ env.rank t :=
  Nat.add_le_add hw (Finset.sum_le_sum_of_subset (reach_subset fun _ ↦ Reaches.mono h))

theorem rank_lt_of_vars (hw : s.weight < t.weight) (h : s.vars ⊆ t.vars) :
    env.rank s < env.rank t :=
  Nat.add_lt_add_of_lt_of_le hw (Finset.sum_le_sum_of_subset (reach_subset fun _ ↦ Reaches.mono h))

theorem rank_lt_of_child (env : Env) (h : s ∈ t.children) : env.rank s < env.rank t :=
  rank_lt_of_vars (Ty.weight_lt_of_child h) fun _ ↦ Ty.mem_vars_of_child h

/-- A variable reaches what its contents reach, and its own cell besides. -/
theorem reach_contents (ht : env.Founded (.var v)) (h : env.Binds v u) :
    ∃ i, env.load i = u.weight ∧ i ∉ env.reach u ∧ insert i (env.reach u) ⊆ env.reach (.var v) := by
  obtain ⟨i, cell, hi, hc, hu⟩ := h.cell
  have hv : env.Reaches (.var v) v := reaches_self (List.mem_singleton_self v)
  refine ⟨i, by simp [load, hc, hu], ?_, ?_⟩
  · intro hm
    obtain ⟨-, w, hw, hwi⟩ := mem_reach.1 hm
    obtain ⟨c, hwc⟩ := ht.owned w (hv.trans_binds h hw)
    obtain rfl := eq_of_cell_eq h hwc hi hwi
    exact ht.acyclic v u hv h hw
  · refine Finset.insert_subset ?_ (reach_subset fun w ↦ hv.trans_binds h)
    exact mem_reach.2 ⟨(List.getElem?_eq_some_iff.1 hc).1, v, hv, hi⟩

theorem card_reach_contents (ht : env.Founded (.var v)) (h : env.Binds v u) :
    (env.reach u).card < (env.reach (.var v)).card := by
  obtain ⟨i, -, hn, hs⟩ := reach_contents ht h
  have := Finset.card_le_card hs
  rwa [Finset.card_insert_of_notMem hn] at this

theorem rank_contents (ht : env.Founded (.var v)) (h : env.Binds v u) :
    env.rank u < env.rank (.var v) := by
  obtain ⟨i, hl, hn, hs⟩ := reach_contents ht h
  have hle : ∑ j ∈ insert i (env.reach u), env.load j ≤ ∑ j ∈ env.reach (.var v), env.load j :=
    Finset.sum_le_sum_of_subset hs
  rw [Finset.sum_insert hn, hl] at hle
  simp only [rank, Ty.weight]
  omega

theorem sum_load_le (env : Env) : ∑ i ∈ Finset.range env.cells.length, env.load i ≤ env.cells.size := by
  have fold (cells : Cells) (n : Nat) :
      n + ∑ i ∈ Finset.range cells.length, (⟨cells, env.limit⟩ : Env).load i ≤
        cells.foldl (fun n cell ↦ n + 1 + (cell.contents.map Ty.size).getD 0) n := by
    induction cells generalizing n with
    | nil => simp
    | cons cell cells ih =>
      have hcell : (cell.contents.map Ty.weight).getD 0 ≤ (cell.contents.map Ty.size).getD 0 := by
        cases cell.contents with
        | none => exact le_rfl
        | some t => exact t.weight_le_size
      rw [List.length_cons, Finset.sum_range_succ', List.foldl_cons]
      refine le_trans ?_ (ih _)
      simp only [load, List.getElem?_cons_succ, List.getElem?_cons_zero, Option.bind_some]
      omega
  simpa [Cells.size] using fold env.cells 0

theorem rank_le (env : Env) (t : Ty) : env.rank t ≤ env.cells.size + t.size := by
  have hsum : ∑ i ∈ env.reach t, env.load i ≤ ∑ i ∈ Finset.range env.cells.length, env.load i :=
    Finset.sum_le_sum_of_subset (reach_subset_range env t)
  have := sum_load_le env
  have := t.weight_le_size
  unfold rank
  omega

end Env

end TypeAlgebra
