import TypeAlgebra.Algebra.Canonical
import TypeAlgebra.Proofs.Structure

namespace TypeAlgebra

namespace Ty

section Renaming

variable (f : Var → Var)

theorem children_rename (t : Ty) : (t.rename f).children = t.children.map (rename f) := by
  cases t <;> simp [rename, children, renameEach_eq]

theorem rename_union (parts : List Ty) : (union parts).rename f = .union (parts.map (rename f)) :=
  congrArg union (renameEach_eq f parts)

theorem rename_inter (parts : List Ty) : (inter parts).rename f = .inter (parts.map (rename f)) :=
  congrArg inter (renameEach_eq f parts)

theorem isUnion_rename (t : Ty) : (t.rename f).isUnion = t.isUnion := by
  cases t <;> rfl

theorem isInter_rename (t : Ty) : (t.rename f).isInter = t.isInter := by
  cases t <;> rfl

theorem isAny_rename (t : Ty) : (t.rename f).isAny = t.isAny := by
  cases t <;> rfl

theorem isNever_rename (t : Ty) : (t.rename f).isNever = t.isNever := by
  cases t <;> rfl

theorem isTuple_rename (t : Ty) : (t.rename f).isTuple = t.isTuple := by
  cases t <;> rfl

theorem alternativesEach_map (g : Ty → Ty) {ts : List Ty}
    (h : ∀ t ∈ ts, (g t).alternatives = t.alternatives.map g) :
    alternativesEach (ts.map g) = (alternativesEach ts).map g := by
  induction ts with
  | nil => rfl
  | cons t ts ih =>
    rw [List.map_cons, alternativesEach, alternativesEach, List.map_append, h t List.mem_cons_self,
      ih fun s hs ↦ h s (List.mem_cons_of_mem t hs)]

theorem alternatives_rename (t : Ty) : (t.rename f).alternatives = t.alternatives.map (rename f) := by
  induction t using induction_children with
  | step t ih =>
    cases ht : t.isUnion
    · rw [alternatives_of_not_union ht, alternatives_of_not_union (by rw [isUnion_rename, ht])]
      rfl
    · cases t <;> cases ht
      rw [rename, alternatives, alternatives, renameEach_eq]
      exact alternativesEach_map (rename f) ih

theorem factorsEach_map (g : Ty → Ty) {ts : List Ty}
    (h : ∀ t ∈ ts, (g t).factors = t.factors.map g) :
    factorsEach (ts.map g) = (factorsEach ts).map g := by
  induction ts with
  | nil => rfl
  | cons t ts ih =>
    rw [List.map_cons, factorsEach, factorsEach, List.map_append, h t List.mem_cons_self,
      ih fun s hs ↦ h s (List.mem_cons_of_mem t hs)]

theorem factors_rename (t : Ty) : (t.rename f).factors = t.factors.map (rename f) := by
  induction t using induction_children with
  | step t ih =>
    cases ht : t.isInter
    · rw [factors_of_not_inter ht, factors_of_not_inter (by rw [isInter_rename, ht])]
      rfl
    · cases t <;> cases ht
      rw [rename, factors, factors, renameEach_eq]
      exact factorsEach_map (rename f) ih

theorem unionsIn_rename (parts : List Ty) :
    unionsIn (parts.map (rename f)) = (unionsIn parts).map (List.map (rename f)) := by
  have hu (t : Ty) : (t.rename f).unionParts? = t.unionParts?.map (List.map (rename f)) := by
    cases t <;> simp [rename, unionParts?, renameEach_eq]
  simp only [unionsIn, List.filterMap_map, List.map_filterMap, Function.comp_def, hu]

theorem othersIn_rename (parts : List Ty) :
    othersIn (parts.map (rename f)) = (othersIn parts).map (rename f) := by
  simp only [othersIn, List.filter_map, Function.comp_def, isUnion_rename]

theorem ofAlternatives_rename (parts : List Ty) :
    ofAlternatives (parts.map (rename f)) = (ofAlternatives parts).rename f := by
  have ha : (parts.map (rename f)).any isAny = parts.any isAny := by
    simp only [List.any_map, Function.comp_def, isAny_rename]
  unfold ofAlternatives
  rw [ha]
  split
  · rfl
  · match parts with
    | [] => rfl
    | [_] => rfl
    | _ :: _ :: _ => simp [rename, renameEach_eq]

theorem ofFactors_rename (parts : List Ty) :
    ofFactors (parts.map (rename f)) = (ofFactors parts).rename f := by
  match parts with
  | [] => rfl
  | [_] => rfl
  | _ :: _ :: _ => simp [ofFactors, rename, renameEach_eq]

theorem vars_rename (t : Ty) : (t.rename f).vars = t.vars.map f := by
  induction t using induction_children with
  | step t ih =>
    have each {ts : List Ty} (h : ∀ s ∈ ts, (s.rename f).vars = s.vars.map f) :
        varsEach (ts.map (rename f)) = (varsEach ts).map f := by
      induction ts with
      | nil => rfl
      | cons t ts ih =>
        rw [List.map_cons, varsEach, varsEach, List.map_append, h t List.mem_cons_self,
          ih fun s hs ↦ h s (List.mem_cons_of_mem t hs)]
    cases t with
    | proc params result =>
      rw [rename, vars, vars, renameEach_eq, List.map_append,
        each fun s hs ↦ ih s (List.mem_append_left _ hs), ih result (by simp [children])]
    | pred inner => exact ih inner List.mem_cons_self
    | tuple elems =>
      rw [rename, vars, vars, renameEach_eq]
      exact each ih
    | union parts =>
      rw [rename, vars, vars, renameEach_eq]
      exact each ih
    | inter parts =>
      rw [rename, vars, vars, renameEach_eq]
      exact each ih
    | _ => rfl

mutual

theorem size_rename : ∀ t : Ty, (t.rename f).size = t.size
  | absent => rfl
  | atomic _ => rfl
  | var _ => rfl
  | proc params result => by rw [rename, size, size, sizeEach_rename params, size_rename result]
  | empty => rfl
  | tuple elems => by rw [rename, size, size, sizeEach_rename elems]
  | union parts => by rw [rename, size, size, sizeEach_rename parts]
  | inter parts => by rw [rename, size, size, sizeEach_rename parts]
  | pred inner => by rw [rename, size, size, size_rename inner]

theorem sizeEach_rename : ∀ ts : List Ty, sizeEach (renameEach f ts) = sizeEach ts
  | [] => rfl
  | t :: ts => by rw [renameEach, sizeEach, sizeEach, size_rename t, sizeEach_rename ts]

end

variable {f}

mutual

theorem form?_rename (hf : ∀ v, (f v).name = v.name) : ∀ t : Ty, (t.rename f).form? = t.form?
  | absent => rfl
  | atomic _ => rfl
  | var v => by rw [rename, form?, form?, hf]
  | proc params result => by
    rw [rename, form?, form?, formEach?_rename hf params, form?_rename hf result]
  | empty => rfl
  | tuple elems => by rw [rename, form?, form?, formEach?_rename hf elems]
  | union parts => by rw [rename, form?, form?, formEach?_rename hf parts]
  | inter parts => by rw [rename, form?, form?, formEach?_rename hf parts]
  | pred inner => by rw [rename, form?, form?, form?_rename hf inner]

theorem formEach?_rename (hf : ∀ v, (f v).name = v.name) :
    ∀ ts : List Ty, formEach? (renameEach f ts) = formEach? ts
  | [] => rfl
  | t :: ts => by rw [renameEach, formEach?, formEach?, form?_rename hf t, formEach?_rename hf ts]

end

theorem text_rename (hf : ∀ v, (f v).name = v.name) (t : Ty) : (t.rename f).text = t.text := by
  rw [text, text, form?_rename hf]

end Renaming

end Ty

theorem choices_map {α β : Type} (f : α → β) (lists : List (List α)) :
    choices (lists.map (List.map f)) = (choices lists).map (List.map f) := by
  induction lists with
  | nil => rfl
  | cons list lists ih =>
    simp only [List.map_cons, choices, ih, List.flatMap_map, List.map_flatMap, List.map_map]
    rfl

end TypeAlgebra
