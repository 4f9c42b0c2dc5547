import TypeAlgebra.Sequence.Choice
import TypeAlgebra.Ty.Basic
import Mathlib.Algebra.BigOperators.Group.List.Basic
import Mathlib.Algebra.Order.BigOperators.Group.List
import Mathlib.Data.List.Forall2
import Mathlib.Tactic.Linarith

namespace TypeAlgebra

namespace Ty

def children : Ty → List Ty
  | proc params result => params ++ [result]
  | tuple elems => elems
  | union parts => parts
  | inter parts => parts
  | pred inner => [inner]
  | _ => []

theorem size_le_sizeEach {t : Ty} {ts : List Ty} (h : t ∈ ts) : t.size ≤ sizeEach ts := by
  induction ts with
  | nil => cases h
  | cons s ts ih =>
    simp only [sizeEach]
    rcases List.mem_cons.1 h with rfl | h
    · omega
    · have := ih h
      omega

theorem size_lt_of_child {s t : Ty} (h : s ∈ t.children) : s.size < t.size := by
  cases t <;> simp only [children, List.not_mem_nil] at h <;> simp only [size]
  case proc params result =>
    rcases List.mem_append.1 h with h | h
    · have := size_le_sizeEach h
      omega
    · obtain rfl := List.mem_singleton.1 h
      omega
  case pred inner =>
    obtain rfl := List.mem_singleton.1 h
    omega
  all_goals
    have := size_le_sizeEach h
    omega

theorem induction_children {P : Ty → Prop} (step : ∀ t, (∀ s ∈ t.children, P s) → P t) (t : Ty) :
    P t := by
  induction hn : t.size using Nat.strongRecOn generalizing t with
  | ind n ih => exact step t fun s hs ↦ ih s.size (hn ▸ size_lt_of_child hs) s rfl

mutual

def vars : Ty → List Var
  | absent => []
  | atomic _ => []
  | var v => [v]
  | proc params result => varsEach params ++ result.vars
  | empty => []
  | tuple elems => varsEach elems
  | union parts => varsEach parts
  | inter parts => varsEach parts
  | pred inner => inner.vars

def varsEach : List Ty → List Var
  | [] => []
  | t :: ts => t.vars ++ varsEach ts

end

theorem mem_varsEach {v : Var} {ts : List Ty} : v ∈ varsEach ts ↔ ∃ t ∈ ts, v ∈ t.vars := by
  induction ts with
  | nil => simp [varsEach]
  | cons t ts ih => simp [varsEach, ih]

theorem mem_vars_iff {v : Var} {t : Ty} : v ∈ t.vars ↔ t = var v ∨ ∃ s ∈ t.children, v ∈ s.vars := by
  cases t <;> simp [vars, children, mem_varsEach, eq_comm, or_and_right, exists_or]

theorem mem_vars_of_child {v : Var} {s t : Ty} (hs : s ∈ t.children) (hv : v ∈ s.vars) : v ∈ t.vars :=
  mem_vars_iff.2 (.inr ⟨s, hs, hv⟩)

mutual

def rename (f : Var → Var) : Ty → Ty
  | absent => absent
  | atomic kind => atomic kind
  | var v => var (f v)
  | proc params result => proc (renameEach f params) (result.rename f)
  | empty => empty
  | tuple elems => tuple (renameEach f elems)
  | union parts => union (renameEach f parts)
  | inter parts => inter (renameEach f parts)
  | pred inner => pred (inner.rename f)

def renameEach (f : Var → Var) : List Ty → List Ty
  | [] => []
  | t :: ts => t.rename f :: renameEach f ts

end

theorem renameEach_eq (f : Var → Var) (ts : List Ty) : renameEach f ts = ts.map (rename f) := by
  induction ts with
  | nil => rfl
  | cons t ts ih => rw [renameEach, ih, List.map_cons]

mutual

theorem rename_id : ∀ t : Ty, t.rename id = t
  | absent => rfl
  | atomic _ => rfl
  | var _ => rfl
  | proc params result => congrArg₂ proc (renameEach_id params) result.rename_id
  | empty => rfl
  | tuple elems => congrArg tuple (renameEach_id elems)
  | union parts => congrArg union (renameEach_id parts)
  | inter parts => congrArg inter (renameEach_id parts)
  | pred inner => congrArg pred inner.rename_id

theorem renameEach_id : ∀ ts : List Ty, renameEach id ts = ts
  | [] => rfl
  | t :: ts => congrArg₂ List.cons t.rename_id (renameEach_id ts)

end

mutual

/-- The longest way down through a type, where an intersection is as long as all its parts together. -/
def weight : Ty → Nat
  | absent => 1
  | atomic _ => 1
  | var _ => 1
  | proc params result => 1 + weightSum params + result.weight
  | empty => 1
  | tuple elems => 1 + weightSum elems
  | union parts => 1 + weightMax parts
  | inter parts => 1 + weightSum parts
  | pred inner => 1 + inner.weight

def weightSum : List Ty → Nat
  | [] => 0
  | t :: ts => t.weight + weightSum ts

def weightMax : List Ty → Nat
  | [] => 0
  | t :: ts => max t.weight (weightMax ts)

end

theorem weight_pos (t : Ty) : 0 < t.weight := by
  cases t <;> simp only [weight] <;> omega

theorem weightSum_eq (ts : List Ty) : weightSum ts = (ts.map weight).sum := by
  induction ts with
  | nil => rfl
  | cons t ts ih => rw [weightSum, ih, List.map_cons, List.sum_cons]

theorem weightMax_le_iff {ts : List Ty} {n : Nat} : weightMax ts ≤ n ↔ ∀ t ∈ ts, t.weight ≤ n := by
  induction ts with
  | nil => simp [weightMax]
  | cons t ts ih => simp [weightMax, ih]

theorem weight_le_max {t : Ty} {ts : List Ty} (h : t ∈ ts) : t.weight ≤ weightMax ts :=
  weightMax_le_iff.1 le_rfl t h

theorem weight_le_sum {t : Ty} {ts : List Ty} (h : t ∈ ts) : t.weight ≤ weightSum ts := by
  rw [weightSum_eq]
  exact List.single_le_sum (fun _ _ ↦ Nat.zero_le _) _ (List.mem_map_of_mem h)

theorem weightMax_le_sum (ts : List Ty) : weightMax ts ≤ weightSum ts :=
  weightMax_le_iff.2 fun _ ↦ weight_le_sum

theorem weightSum_append (ss ts : List Ty) : weightSum (ss ++ ts) = weightSum ss + weightSum ts := by
  simp only [weightSum_eq, List.map_append, List.sum_append]

theorem weightSum_le_of_sublist {ss ts : List Ty} (h : ss.Sublist ts) :
    weightSum ss ≤ weightSum ts := by
  rw [weightSum_eq, weightSum_eq]
  exact (h.map weight).sum_le_sum fun _ _ ↦ Nat.zero_le _

theorem weightSum_of_perm {ss ts : List Ty} (h : ss.Perm ts) : weightSum ss = weightSum ts := by
  rw [weightSum_eq, weightSum_eq]
  exact (h.map weight).sum_eq

theorem weight_lt_of_child {s t : Ty} (h : s ∈ t.children) : s.weight < t.weight := by
  cases t <;> simp only [children, List.not_mem_nil] at h <;> simp only [weight]
  case proc params result =>
    rcases List.mem_append.1 h with h | h
    · have := weight_le_sum h
      omega
    · obtain rfl := List.mem_singleton.1 h
      omega
  case pred inner =>
    obtain rfl := List.mem_singleton.1 h
    omega
  case union parts =>
    have := weight_le_max h
    omega
  all_goals
    have := weight_le_sum h
    omega

mutual

theorem weight_le_size : ∀ t : Ty, t.weight ≤ t.size
  | absent => le_rfl
  | atomic _ => le_rfl
  | var _ => le_rfl
  | proc params result =>
    Nat.add_le_add (Nat.add_le_add_left (weightSum_le_sizeEach params) 1) result.weight_le_size
  | empty => le_rfl
  | tuple elems => Nat.add_le_add_left (weightSum_le_sizeEach elems) 1
  | union parts =>
    Nat.add_le_add_left ((weightMax_le_sum parts).trans (weightSum_le_sizeEach parts)) 1
  | inter parts => Nat.add_le_add_left (weightSum_le_sizeEach parts) 1
  | pred inner => Nat.add_le_add_left inner.weight_le_size 1

theorem weightSum_le_sizeEach : ∀ ts : List Ty, weightSum ts ≤ sizeEach ts
  | [] => le_rfl
  | t :: ts => Nat.add_le_add t.weight_le_size (weightSum_le_sizeEach ts)

end

theorem mem_alternativesEach {s : Ty} {ts : List Ty} :
    s ∈ alternativesEach ts ↔ ∃ t ∈ ts, s ∈ t.alternatives := by
  induction ts with
  | nil => simp [alternativesEach]
  | cons t ts ih => simp [alternativesEach, ih]

theorem alternatives_of_not_union {t : Ty} (h : t.isUnion = false) : t.alternatives = [t] := by
  cases t <;> first | rfl | cases h

theorem alternativesEach_of_not_union {ts : List Ty} (h : ∀ t ∈ ts, t.isUnion = false) :
    alternativesEach ts = ts := by
  induction ts with
  | nil => rfl
  | cons t ts ih =>
    rw [alternativesEach, alternatives_of_not_union (h t List.mem_cons_self),
      ih fun s hs ↦ h s (List.mem_cons_of_mem t hs), List.singleton_append]

/-- What the parts of nested unions have in common with the unions. -/
theorem alternatives_spec {s t : Ty} (h : s ∈ t.alternatives) :
    s.isUnion = false ∧ s.weight ≤ t.weight ∧ s.vars ⊆ t.vars := by
  induction t using induction_children with
  | step t ih =>
    cases ht : t.isUnion
    · rw [alternatives_of_not_union ht, List.mem_singleton] at h
      subst h
      exact ⟨ht, le_rfl, List.Subset.refl _⟩
    · cases t <;> cases ht
      obtain ⟨p, hp, hs⟩ := mem_alternativesEach.1 h
      obtain ⟨hu, hw, hv⟩ := ih p hp hs
      exact ⟨hu, hw.trans (weight_lt_of_child hp).le, fun v h ↦ mem_vars_of_child hp (hv h)⟩

/-- What unions pass on to their parts holds of the parts of nested unions. -/
theorem alternative_of_part {P : Ty → Prop} (hp : ∀ {s : Ty} {parts : List Ty}, P (union parts) → s ∈ parts → P s)
    {s t : Ty} (ht : P t) (h : s ∈ t.alternatives) : P s := by
  induction t using induction_children with
  | step t ih =>
    cases hu : t.isUnion
    · rw [alternatives_of_not_union hu, List.mem_singleton] at h
      exact h ▸ ht
    · cases t <;> cases hu
      obtain ⟨p, hm, hs⟩ := mem_alternativesEach.1 h
      exact ih p hm (hp ht hm) hs

theorem alternative_of_child {P : Ty → Prop} (hp : ∀ {s t : Ty}, P t → s ∈ t.children → P s) {s t : Ty}
    (ht : P t) (h : s ∈ t.alternatives) : P s :=
  alternative_of_part (fun ht hs ↦ hp ht hs) ht h

theorem mem_factorsEach {s : Ty} {ts : List Ty} :
    s ∈ factorsEach ts ↔ ∃ t ∈ ts, s ∈ t.factors := by
  induction ts with
  | nil => simp [factorsEach]
  | cons t ts ih => simp [factorsEach, ih]

theorem factors_of_not_inter {t : Ty} (h : t.isInter = false) : t.factors = [t] := by
  cases t <;> first | rfl | cases h

theorem factorsEach_of_not_inter {ts : List Ty} (h : ∀ t ∈ ts, t.isInter = false) :
    factorsEach ts = ts := by
  induction ts with
  | nil => rfl
  | cons t ts ih =>
    rw [factorsEach, factors_of_not_inter (h t List.mem_cons_self),
      ih fun s hs ↦ h s (List.mem_cons_of_mem t hs), List.singleton_append]

theorem factors_spec {s t : Ty} (h : s ∈ t.factors) : s.isInter = false ∧ s.vars ⊆ t.vars := by
  induction t using induction_children with
  | step t ih =>
    cases ht : t.isInter
    · rw [factors_of_not_inter ht, List.mem_singleton] at h
      subst h
      exact ⟨ht, List.Subset.refl _⟩
    · cases t <;> cases ht
      obtain ⟨p, hp, hs⟩ := mem_factorsEach.1 h
      obtain ⟨hi, hv⟩ := ih p hp hs
      exact ⟨hi, fun v h ↦ mem_vars_of_child hp (hv h)⟩

theorem factor_of_part {P : Ty → Prop} (hp : ∀ {s : Ty} {parts : List Ty}, P (inter parts) → s ∈ parts → P s)
    {s t : Ty} (ht : P t) (h : s ∈ t.factors) : P s := by
  induction t using induction_children with
  | step t ih =>
    cases hi : t.isInter
    · rw [factors_of_not_inter hi, List.mem_singleton] at h
      exact h ▸ ht
    · cases t <;> cases hi
      obtain ⟨p, hm, hs⟩ := mem_factorsEach.1 h
      exact ih p hm (hp ht hm) hs

theorem factor_of_child {P : Ty → Prop} (hp : ∀ {s t : Ty}, P t → s ∈ t.children → P s) {s t : Ty}
    (ht : P t) (h : s ∈ t.factors) : P s :=
  factor_of_part (fun ht hs ↦ hp ht hs) ht h

theorem weightSum_factorsEach_le {ts : List Ty}
    (h : ∀ t ∈ ts, weightSum t.factors ≤ t.weight) : weightSum (factorsEach ts) ≤ weightSum ts := by
  induction ts with
  | nil => exact le_rfl
  | cons t ts ih =>
    rw [factorsEach, weightSum_append, weightSum]
    exact Nat.add_le_add (h t List.mem_cons_self) (ih fun s hs ↦ h s (List.mem_cons_of_mem t hs))

theorem weightSum_factors (t : Ty) : weightSum t.factors ≤ t.weight := by
  induction t using induction_children with
  | step t ih =>
    cases ht : t.isInter
    · rw [factors_of_not_inter ht]
      exact le_rfl
    · cases t <;> cases ht
      exact (weightSum_factorsEach_le ih).trans (Nat.le_add_left _ 1)

theorem weightSum_factorsEach (ts : List Ty) : weightSum (factorsEach ts) ≤ weightSum ts :=
  weightSum_factorsEach_le fun t _ ↦ t.weightSum_factors

end Ty

theorem mem_choices {α : Type} {choice : List α} {lists : List (List α)} :
    choice ∈ choices lists ↔ List.Forall₂ (· ∈ ·) choice lists := by
  induction lists generalizing choice with
  | nil => simp [choices]
  | cons list lists ih =>
    simp only [choices, List.mem_flatMap, List.mem_map, List.forall₂_cons_right_iff]
    constructor
    · rintro ⟨a, ha, rest, hr, rfl⟩
      exact ⟨a, rest, ha, ih.1 hr, rfl⟩
    · rintro ⟨a, rest, ha, hr, rfl⟩
      exact ⟨a, ha, rest, ih.2 hr, rfl⟩

theorem exists_mem_of_mem_choice {α : Type} {a : α} {choice : List α} {lists : List (List α)}
    (h : choice ∈ choices lists) (ha : a ∈ choice) : ∃ list ∈ lists, a ∈ list := by
  have h := mem_choices.1 h
  induction h with
  | nil => cases ha
  | cons hd _ ih =>
    rcases List.mem_cons.1 ha with rfl | ha
    · exact ⟨_, List.mem_cons_self, hd⟩
    · obtain ⟨list, hl, hm⟩ := ih (mem_choices.2 ‹_›) ha
      exact ⟨list, List.mem_cons_of_mem _ hl, hm⟩

namespace Ty

def unionsIn (parts : List Ty) : List (List Ty) :=
  parts.filterMap unionParts?

def othersIn (parts : List Ty) : List Ty :=
  parts.filter (!·.isUnion)

theorem mem_unionsIn {us : List Ty} {parts : List Ty} :
    us ∈ unionsIn parts ↔ union us ∈ parts := by
  have hu (t : Ty) : t.unionParts? = some us ↔ t = union us := by
    cases t <;> simp [unionParts?]
  simp only [unionsIn, List.mem_filterMap, hu, exists_eq_right]

/-- Replacing each union by one of its parts makes an intersection lighter by the number of unions. -/
theorem weightSum_choice {parts choice : List Ty} (h : choice ∈ choices (unionsIn parts)) :
    weightSum (choice ++ othersIn parts) + (unionsIn parts).length ≤ weightSum parts := by
  induction parts generalizing choice with
  | nil =>
    obtain rfl := List.forall₂_nil_right_iff.1 (mem_choices.1 h)
    exact le_rfl
  | cons t parts ih =>
    cases ht : t.isUnion
    · have hu : unionsIn (t :: parts) = unionsIn parts := by
        cases t <;> first | rfl | cases ht
      have ho : othersIn (t :: parts) = t :: othersIn parts := by simp [othersIn, ht]
      rw [hu] at h ⊢
      have := ih h
      rw [weightSum_append] at this ⊢
      rw [ho, weightSum, weightSum]
      omega
    · cases t <;> cases ht
      next us =>
      have hu : unionsIn (union us :: parts) = us :: unionsIn parts := rfl
      have ho : othersIn (union us :: parts) = othersIn parts := rfl
      rw [hu] at h ⊢
      obtain ⟨s, rest, hs, hr, rfl⟩ := List.forall₂_cons_right_iff.1 (mem_choices.1 h)
      have := ih (mem_choices.2 hr)
      have := weight_le_max hs
      rw [weightSum_append] at *
      rw [ho, weightSum, weightSum, weight, List.length_cons]
      omega

/-- A member of an alternative of an intersection is a part of it, or a part of a part. -/
theorem mem_choice {parts choice : List Ty} {s : Ty} (h : choice ∈ choices (unionsIn parts))
    (hs : s ∈ choice ++ othersIn parts) : s ∈ parts ∨ ∃ us, union us ∈ parts ∧ s ∈ us := by
  rcases List.mem_append.1 hs with hs | hs
  · obtain ⟨us, hus, hm⟩ := exists_mem_of_mem_choice h hs
    exact .inr ⟨us, mem_unionsIn.1 hus, hm⟩
  · exact .inl (List.mem_filter.1 hs).1

end Ty

end TypeAlgebra
