import TypeAlgebra.Proofs.Correspondence
import TypeAlgebra.Proofs.Denotation
import TypeAlgebra.Proofs.Extremes

namespace TypeAlgebra

section Outcome

variable {ε α β : Type} {x : Except ε α} {b : β}

theorem exists_of_map_eq_ok {f : α → β} (h : x.map f = .ok b) : ∃ a, x = .ok a ∧ f a = b := by
  cases x with
  | error => cases h
  | ok a => exact ⟨a, rfl, Except.ok.inj h⟩

theorem exists_of_bind_eq_ok {f : α → Except ε β} (h : x >>= f = .ok b) : ∃ a, x = .ok a ∧ f a = .ok b := by
  cases x with
  | error => cases h
  | ok a => exact ⟨a, rfl, h⟩

end Outcome

namespace Ty

/-- What may stand at the top of a type: no tuple with elements, and a procedure without tuples in it. -/
def Tidy : Ty → Prop
  | absent => False
  | proc params result => ∀ s ∈ params ++ [result], s.isTuple = false
  | tuple _ => False
  | _ => True

inductive WellFormed : Ty → Prop
  | node {t : Ty} : t.Tidy → (∀ s ∈ t.children, s.WellFormed) → t.WellFormed

variable {s t : Ty}

theorem wellFormed_leaf (ht : t.Tidy) (hc : t.children = []) : t.WellFormed := by
  refine .node ht ?_
  rw [hc]
  exact List.forall_mem_nil _

theorem WellFormed.tidy (h : t.WellFormed) : t.Tidy := by
  obtain ⟨ht, -⟩ := h
  exact ht

theorem WellFormed.child (h : t.WellFormed) (hs : s ∈ t.children) : s.WellFormed := by
  obtain ⟨-, hc⟩ := h
  exact hc s hs

theorem wellFormed_closed : Env.Closed WellFormed where
  child := WellFormed.child
  any := wellFormed_leaf trivial rfl
  never := wellFormed_leaf trivial rfl
  union h := .node trivial h
  inter h := .node trivial h

theorem WellFormed.isTuple_iff (h : t.WellFormed) : t.isTuple = true ↔ t = empty := by
  have ht := h.tidy
  cases t with
  | tuple => cases ht
  | _ => simp [isTuple]

theorem tidy_rename {f : Var → Var} (h : (t.rename f).Tidy) : t.Tidy := by
  cases t with
  | proc params result =>
    intro s hs
    rw [← isTuple_rename]
    have hc : renameEach f params ++ [rename f result] = (params ++ [result]).map (rename f) :=
      children_rename f (proc params result)
    refine h (s.rename f) ?_
    rw [hc]
    exact List.mem_map_of_mem hs
  | absent | tuple => cases h
  | _ => trivial

theorem wellFormed_of_detached (h : t.detached.WellFormed) : t.WellFormed := by
  induction t using induction_children with
  | step t ih =>
    refine .node (tidy_rename h.tidy) fun s hs ↦ ih s hs (h.child ?_)
    rw [detached, children_rename]
    exact List.mem_map_of_mem hs

end Ty

namespace Tree

inductive Alternates : List Tree → List Tree → Prop
  | one (tree : Tree) : Alternates [tree] [tree]
  | more (tree : Tree) {rest types : List Tree} : Alternates rest types →
      Alternates (tree :: .atom "*" :: rest) (tree :: types)

inductive ParamList : List Tree → List Tree → Prop
  | none : ParamList [.atom "Empty"] []
  | some {params types : List Tree} : Alternates params types → ParamList params types

inductive Bottom : Tree → Prop
  | never : Bottom (.atom "never")
  | union {parts : List Tree} : (∀ part ∈ parts, Bottom part) → Bottom (.group (.atom "union" :: parts))
  | inter {parts : List Tree} {part : Tree} : part ∈ parts → Bottom part → Bottom (.group (.atom "inter" :: parts))

inductive Top : Tree → Prop
  | any : Top (.atom "any")
  | union {parts : List Tree} {part : Tree} : part ∈ parts → Top part → Top (.group (.atom "union" :: parts))
  | inter {parts : List Tree} : (∀ part ∈ parts, Top part) → Top (.group (.atom "inter" :: parts))

inductive Vacant : Tree → Prop
  | empty : Vacant (.atom "Empty")
  | union {parts : List Tree} {part : Tree} : part ∈ parts → Vacant part →
      (∀ other ∈ parts, ¬Bottom other → Vacant other) → Vacant (.group (.atom "union" :: parts))
  | inter {parts : List Tree} {part : Tree} : part ∈ parts → Vacant part →
      (∀ other ∈ parts, ¬Top other → Vacant other) → Vacant (.group (.atom "inter" :: parts))

/-- The trees that are type expressions. -/
inductive IsType : Tree → Prop
  | keyword {name : String} {kind : Kind} : Kind.ofKeyword? name = some kind → IsType (.atom name)
  | empty : IsType (.atom "Empty")
  | var {name : String} : name ∉ Parser.reserved → Parser.startsName name = true → IsType (.atom name)
  | union {parts : List Tree} : parts ≠ [] → (∀ part ∈ parts, IsType part) →
      IsType (.group (.atom "union" :: parts))
  | inter {parts : List Tree} : parts ≠ [] → (∀ part ∈ parts, IsType part) →
      IsType (.group (.atom "inter" :: parts))
  | pred {inner : Tree} : IsType inner → IsType (.group [.atom "is?", inner])
  | proc {params types result : List Tree} :
      (∀ name ∈ ["union", "inter", "is?"], params.head? ≠ some (.atom name)) → .atom "->" ∉ params →
      ParamList params types → (∀ type ∈ types, IsType type) → (∀ type ∈ types, ¬Vacant type) →
      result ≠ [] → .atom "->" ∉ result → IsType (Clause.resultTree result) →
      ¬Vacant (Clause.resultTree result) → IsType (.group (params ++ .atom "->" :: result))

variable {tree : Tree} {name : String} {items parts params types : List Tree}

theorem Alternates.ne_nil (h : Alternates items types) : types ≠ [] := by
  cases h with
  | one => exact List.cons_ne_nil _ _
  | more => exact List.cons_ne_nil _ _

theorem ParamList.ne_nil (h : ParamList params types) : params ≠ [] := by
  cases h with
  | none => exact List.cons_ne_nil _ _
  | some h =>
    cases h with
    | one => exact List.cons_ne_nil _ _
    | more => exact List.cons_ne_nil _ _

theorem isAtom_eq_true_iff : tree.isAtom name = true ↔ tree = .atom name := by
  cases tree <;> simp [isAtom]

theorem isAtom_eq_false_iff : tree.isAtom name = false ↔ tree ≠ .atom name := by
  rw [← Bool.not_eq_true, isAtom_eq_true_iff]

theorem bottom_atom_iff : Bottom (.atom name) ↔ name = "never" := by
  constructor
  · intro h
    cases h
    rfl
  · rintro rfl
    exact .never

theorem top_atom_iff : Top (.atom name) ↔ name = "any" := by
  constructor
  · intro h
    cases h
    rfl
  · rintro rfl
    exact .any

theorem vacant_atom_iff : Vacant (.atom name) ↔ name = "Empty" := by
  constructor
  · intro h
    cases h
    rfl
  · rintro rfl
    exact .empty

theorem bottom_group_iff :
    Bottom (.group items) ↔ (∃ parts, items = .atom "union" :: parts ∧ ∀ part ∈ parts, Bottom part) ∨
      ∃ parts, items = .atom "inter" :: parts ∧ ∃ part ∈ parts, Bottom part := by
  constructor
  · intro h
    cases h with
    | union hall => exact .inl ⟨_, rfl, hall⟩
    | inter hm hb => exact .inr ⟨_, rfl, _, hm, hb⟩
  · rintro (⟨parts, rfl, hall⟩ | ⟨parts, rfl, part, hm, hb⟩)
    · exact .union hall
    · exact .inter hm hb

theorem top_group_iff :
    Top (.group items) ↔ (∃ parts, items = .atom "union" :: parts ∧ ∃ part ∈ parts, Top part) ∨
      ∃ parts, items = .atom "inter" :: parts ∧ ∀ part ∈ parts, Top part := by
  constructor
  · intro h
    cases h with
    | union hm hb => exact .inl ⟨_, rfl, _, hm, hb⟩
    | inter hall => exact .inr ⟨_, rfl, hall⟩
  · rintro (⟨parts, rfl, part, hm, hb⟩ | ⟨parts, rfl, hall⟩)
    · exact .union hm hb
    · exact .inter hall

theorem vacant_group_iff :
    Vacant (.group items) ↔
      (∃ parts, items = .atom "union" :: parts ∧ (∃ part ∈ parts, Vacant part) ∧
        ∀ part ∈ parts, ¬Bottom part → Vacant part) ∨
      ∃ parts, items = .atom "inter" :: parts ∧ (∃ part ∈ parts, Vacant part) ∧
        ∀ part ∈ parts, ¬Top part → Vacant part := by
  constructor
  · intro h
    cases h with
    | union hm hv hall => exact .inl ⟨_, rfl, ⟨_, hm, hv⟩, hall⟩
    | inter hm hv hall => exact .inr ⟨_, rfl, ⟨_, hm, hv⟩, hall⟩
  · rintro (⟨parts, rfl, ⟨part, hm, hv⟩, hall⟩ | ⟨parts, rfl, ⟨part, hm, hv⟩, hall⟩)
    · exact .union hm hv hall
    · exact .inter hm hv hall

end Tree

namespace Clause

open TypeAlgebra.Tree (Alternates ParamList isAtom_eq_true_iff isAtom_eq_false_iff)

variable {items params types trees : List Tree} {clause : Clause} {position : Nat}

inductive Divides : List Tree → Clause → Prop
  | union {parts : List Tree} : parts ≠ [] → Divides (.atom "union" :: parts) (.union parts)
  | inter {parts : List Tree} : parts ≠ [] → Divides (.atom "inter" :: parts) (.inter parts)
  | pred (inner : Tree) : Divides [.atom "is?", inner] (.pred inner)
  | proc {params types result : List Tree} :
      (∀ name ∈ ["union", "inter", "is?"], params.head? ≠ some (.atom name)) → .atom "->" ∉ params →
      ParamList params types → (∀ type ∈ types, type ≠ .atom "*") → types ≠ [.atom "Empty"] →
      result ≠ [] → .atom "->" ∉ result →
      Divides (params ++ .atom "->" :: result) (.proc types (resultTree result))

theorem betweenStars_eq_ok_iff :
    betweenStars params position trees = .ok types ↔
      Alternates trees types ∧ ∀ type ∈ types, type ≠ .atom "*" := by
  constructor
  · intro h
    fun_induction betweenStars params position trees generalizing types with
    | case1 => cases h
    | case2 => cases h
    | case3 position tree hs =>
      cases h
      have hstar := isAtom_eq_false_iff.1 (Bool.eq_false_of_not_eq_true hs)
      exact ⟨.one tree, List.forall_mem_singleton.2 hstar⟩
    | case4 position tree hs star rest hstar ih =>
      obtain ⟨found, hfound, rfl⟩ := exists_of_map_eq_ok h
      obtain ⟨halt, hall⟩ := ih hfound
      obtain rfl := isAtom_eq_true_iff.1 hstar
      have htree := isAtom_eq_false_iff.1 (Bool.eq_false_of_not_eq_true hs)
      exact ⟨.more tree halt, List.forall_mem_cons.2 ⟨htree, hall⟩⟩
    | case5 => cases h
  · rintro ⟨h, hstar⟩
    induction h generalizing position with
    | one tree =>
      have htree := isAtom_eq_false_iff.2 (hstar tree List.mem_cons_self)
      rw [betweenStars, htree]
      rfl
    | more tree _ ih =>
      obtain ⟨htree, hrest⟩ := List.forall_mem_cons.1 hstar
      rw [betweenStars, isAtom_eq_false_iff.2 htree]
      change Except.map (tree :: ·) (betweenStars params (position + 2) _) = _
      rw [ih hrest]
      rfl

theorem paramTypes_eq_ok_iff :
    paramTypes params = .ok types ↔
      ParamList params types ∧ (∀ type ∈ types, type ≠ .atom "*") ∧ types ≠ [.atom "Empty"] := by
  unfold paramTypes
  split
  · constructor
    · intro h
      cases h
      exact ⟨.none, List.forall_mem_nil _, nofun⟩
    · rintro ⟨h, -, hne⟩
      cases h with
      | none => rfl
      | some h =>
        cases h
        exact absurd rfl hne
  · next hempty =>
    rw [betweenStars_eq_ok_iff]
    constructor
    · rintro ⟨h, hstar⟩
      refine ⟨.some h, hstar, ?_⟩
      rintro rfl
      cases h with
      | one => exact hempty rfl
      | more _ h => exact h.ne_nil rfl
    · rintro ⟨h, hstar, -⟩
      cases h with
      | none => exact absurd rfl hempty
      | some h => exact ⟨h, hstar⟩

theorem arrowFlaw?_eq_none_iff {rest : List Tree} :
    arrowFlaw? params rest = none ↔
      params ≠ [] ∧ ∃ arrow result, rest = arrow :: result ∧ result ≠ [] ∧ .atom "->" ∉ result := by
  cases rest with
  | nil => simp [arrowFlaw?]
  | cons arrow result =>
    have hany : result.any (·.isAtom "->") = true ↔ .atom "->" ∈ result := by
      simp [isAtom_eq_true_iff]
    simp only [arrowFlaw?]
    split_ifs with h₁ h₂ h₃ <;> simp_all

theorem ofProc_eq_ok_iff :
    ofProc items = .ok clause ↔
      ∃ params types result, items = params ++ .atom "->" :: result ∧ .atom "->" ∉ params ∧ .atom "->" ∉ result ∧
        result ≠ [] ∧ ParamList params types ∧ (∀ type ∈ types, type ≠ .atom "*") ∧ types ≠ [.atom "Empty"] ∧
        clause = .proc types (resultTree result) := by
  constructor
  · intro h
    have happend := List.takeWhile_append_dropWhile (p := (!Tree.isAtom "->" ·)) (l := items)
    simp only [ofProc] at h
    split at h
    · cases h
    · next hflaw =>
      obtain ⟨types, htypes, rfl⟩ := exists_of_map_eq_ok h
      obtain ⟨-, arrow, result, hrest, hne, hr⟩ := arrowFlaw?_eq_none_iff.1 hflaw
      obtain ⟨hparams, hstar, hempty⟩ := paramTypes_eq_ok_iff.1 htypes
      obtain rfl : arrow = .atom "->" := by
        have hhead := List.head?_dropWhile_not (!Tree.isAtom "->" ·) items
        rw [hrest] at hhead
        simpa [isAtom_eq_true_iff] using hhead
      have hp : .atom "->" ∉ items.takeWhile (!Tree.isAtom "->" ·) := by
        intro hm
        simpa [Tree.isAtom] using List.mem_takeWhile_imp hm
      rw [hrest] at happend
      refine ⟨_, types, result, happend.symm, hp, hr, hne, hparams, hstar, hempty, ?_⟩
      rw [hrest]
      rfl
  · rintro ⟨params, types, result, rfl, hp, hr, hne, hparams, hstar, hempty, rfl⟩
    have hall : ∀ tree ∈ params, (!tree.isAtom "->") = true := by
      intro tree ht
      rw [isAtom_eq_false_iff.2 fun he ↦ hp (he ▸ ht)]
      rfl
    have htake : (params ++ .atom "->" :: result).takeWhile (!·.isAtom "->") = params := by
      rw [List.takeWhile_append_of_pos hall, List.takeWhile_cons_of_neg (by decide), List.append_nil]
    have hdrop : (params ++ .atom "->" :: result).dropWhile (!·.isAtom "->") = .atom "->" :: result := by
      rw [List.dropWhile_append_of_pos hall, List.dropWhile_cons_of_neg (by decide)]
    rw [ofProc, htake, hdrop, arrowFlaw?_eq_none_iff.2 ⟨hparams.ne_nil, _, _, rfl, hne, hr⟩]
    simp only
    rw [paramTypes_eq_ok_iff.2 ⟨hparams, hstar, hempty⟩]
    rfl

theorem ofItems_eq_ok_iff : ofItems items = .ok clause ↔ Divides items clause := by
  constructor
  · intro h
    unfold ofItems at h
    split at h
    · cases h
    · cases h
    · cases h
    · next hne =>
      cases h
      exact .union (by rintro rfl; exact hne rfl)
    · next hne =>
      cases h
      exact .inter (by rintro rfl; exact hne rfl)
    · cases h
      exact .pred _
    · cases h
    · next hunion hinter _ hpred =>
      obtain ⟨params, types, result, rfl, hp, hr, hne, hparams, hstar, hempty, rfl⟩ := ofProc_eq_ok_iff.1 h
      refine .proc ?_ hp hparams hstar hempty hne hr
      obtain ⟨first, params, rfl⟩ := List.exists_cons_of_ne_nil hparams.ne_nil
      have hhead {name : String} (h : (first :: params).head? = some (.atom name)) : first = .atom name :=
        Option.some.inj h
      refine List.forall_mem_cons.2 ⟨fun h ↦ ?_, List.forall_mem_cons.2 ⟨fun h ↦ ?_, ?_⟩⟩
      · exact hunion _ (by rw [hhead h]; rfl)
      · exact hinter _ (by rw [hhead h]; rfl)
      · exact List.forall_mem_singleton.2 fun h ↦ hpred _ (by rw [hhead h]; rfl)
  · intro h
    cases h with
    | @union parts hne =>
      obtain ⟨first, parts, rfl⟩ := List.exists_cons_of_ne_nil hne
      rfl
    | @inter parts hne =>
      obtain ⟨first, parts, rfl⟩ := List.exists_cons_of_ne_nil hne
      rfl
    | pred inner => rfl
    | @proc params types result hhead hp hparams hstar hempty hne hr =>
      obtain ⟨first, rest, rfl⟩ := List.exists_cons_of_ne_nil hparams.ne_nil
      have hfirst : ∀ name ∈ ["union", "inter", "is?"], first.isAtom name = false := by
        intro name hn
        refine isAtom_eq_false_iff.2 ?_
        rintro rfl
        exact hhead name hn rfl
      rw [List.cons_append, Parser.ofItems_eq_ofProc hfirst, ← List.cons_append]
      exact ofProc_eq_ok_iff.2 ⟨_, _, _, rfl, hp, hr, hne, hparams, hstar, hempty, rfl⟩

end Clause

namespace Parser

open Env (Normal)

variable {limit : Int64} {tree : Tree} {trees parts : List Tree} {name : String} {u : Ty} {us : List Ty}

structure Means (limit : Int64) (tree : Tree) (u : Ty) : Prop where
  normal : Normal limit u
  wellFormed : u.WellFormed
  never_iff : u = .never ↔ tree.Bottom
  any_iff : u = .any ↔ tree.Top
  empty_iff : u = .empty ↔ tree.Vacant

theorem Means.isTuple_eq_false_iff (h : Means limit tree u) : u.isTuple = false ↔ ¬tree.Vacant := by
  rw [← Bool.not_eq_true, h.wellFormed.isTuple_iff, h.empty_iff]

theorem ofKeyword?_eq_never_iff : Kind.ofKeyword? name = some .never ↔ name = "never" := by
  unfold Kind.ofKeyword?
  split <;> simp_all

theorem ofKeyword?_eq_any_iff : Kind.ofKeyword? name = some .any ↔ name = "any" := by
  unfold Kind.ofKeyword?
  split <;> simp_all

theorem ne_of_ofKeyword? (hk : Kind.ofKeyword? name = none) : name ≠ "never" ∧ name ≠ "any" := by
  constructor
  · rw [ne_eq, ← ofKeyword?_eq_never_iff, hk]
    nofun
  · rw [ne_eq, ← ofKeyword?_eq_any_iff, hk]
    nofun

theorem means_atom (hn : Normal limit u) (hw : u.WellFormed) (h₁ : u = .never ↔ name = "never")
    (h₂ : u = .any ↔ name = "any") (h₃ : u = .empty ↔ name = "Empty") : Means limit (.atom name) u where
  normal := hn
  wellFormed := hw
  never_iff := h₁.trans Tree.bottom_atom_iff.symm
  any_iff := h₂.trans Tree.top_atom_iff.symm
  empty_iff := h₃.trans Tree.vacant_atom_iff.symm

theorem normal_var (limit : Int64) (name : String) : Normal limit (.var ⟨name, none⟩) where
  named v hv := by
    obtain rfl := List.mem_singleton.1 hv
    rfl
  whole := .node nofun nofun
  canonical := .node nofun nofun nofun

theorem denoteAtom_means (h : denoteAtom name = .ok u) :
    (Tree.atom name).IsType ∧ Means limit (.atom name) u := by
  unfold denoteAtom at h
  split at h
  · next kind hk =>
    cases h
    refine ⟨.keyword hk, means_atom (Env.normal_atomic limit kind) (Ty.wellFormed_leaf trivial rfl) ?_ ?_ ?_⟩
    · simp [← ofKeyword?_eq_never_iff, hk, Ty.never]
    · simp [← ofKeyword?_eq_any_iff, hk, Ty.any]
    · refine iff_of_false Ty.noConfusion ?_
      rintro rfl
      cases hk
  · next hk =>
    obtain ⟨hnever, hany⟩ := ne_of_ofKeyword? hk
    split_ifs at h with he hr hs
    · cases h
      refine ⟨he ▸ .empty, means_atom (Env.normal_empty limit) (Ty.wellFormed_leaf trivial rfl) ?_ ?_ ?_⟩
      · exact iff_of_false Ty.noConfusion hnever
      · exact iff_of_false Ty.noConfusion hany
      · exact iff_of_true rfl he
    · cases h
      refine ⟨.var hr hs, means_atom (normal_var limit name) (Ty.wellFormed_leaf trivial rfl) ?_ ?_ ?_⟩
      · exact iff_of_false Ty.noConfusion hnever
      · exact iff_of_false Ty.noConfusion hany
      · exact iff_of_false Ty.noConfusion he

theorem exists_denoteAtom (h : (Tree.atom name).IsType) : ∃ u, denoteAtom name = .ok u := by
  unfold denoteAtom
  cases hk : Kind.ofKeyword? name with
  | some kind => exact ⟨_, rfl⟩
  | none =>
    cases h with
    | keyword hk' => cases hk.symm.trans hk'
    | empty => exact ⟨_, rfl⟩
    | var hr hs =>
      simp only [if_neg hr, if_pos hs]
      split
      · exact ⟨_, rfl⟩
      · exact ⟨_, rfl⟩

section Parts

variable (h : Matched (Means limit) parts us)

include h

theorem parts_normal : ∀ u ∈ us, Normal limit u :=
  h.forall_right fun _ _ hu ↦ hu.normal

theorem parts_wellFormed : ∀ u ∈ us, u.WellFormed :=
  h.forall_right fun _ _ hu ↦ hu.wellFormed

theorem all_never_iff : (∀ u ∈ us, u = .never) ↔ ∀ part ∈ parts, part.Bottom :=
  (h.forall_iff fun _ _ _ _ hu ↦ hu.never_iff.symm).symm

theorem all_any_iff : (∀ u ∈ us, u = .any) ↔ ∀ part ∈ parts, part.Top :=
  (h.forall_iff fun _ _ _ _ hu ↦ hu.any_iff.symm).symm

theorem never_mem_iff : .never ∈ us ↔ ∃ part ∈ parts, part.Bottom := by
  rw [h.exists_iff fun _ _ _ _ hu ↦ hu.never_iff.symm]
  simp

theorem any_mem_iff : .any ∈ us ↔ ∃ part ∈ parts, part.Top := by
  rw [h.exists_iff fun _ _ _ _ hu ↦ hu.any_iff.symm]
  simp

theorem empty_mem_iff : .empty ∈ us ↔ ∃ part ∈ parts, part.Vacant := by
  rw [h.exists_iff fun _ _ _ _ hu ↦ hu.empty_iff.symm]
  simp

theorem means_union : Means limit (.group (.atom "union" :: parts)) ((Env.vacant limit).joined us) where
  normal := Env.normal_joined (parts_normal h)
  wellFormed := Env.joined_closed Ty.wellFormed_closed (fun u hu ↦ (parts_normal h u hu).settled.sound)
    (fun u hu ↦ (parts_normal h u hu).canonical) (parts_wellFormed h)
  never_iff := by
    rw [Env.joined_eq_never_iff (parts_normal h), all_never_iff h, Tree.bottom_group_iff]
    simp
  any_iff := by
    rw [Env.joined_eq_any_iff (parts_normal h), any_mem_iff h, Tree.top_group_iff]
    simp
  empty_iff := by
    have hrest : (∀ u ∈ us, u = .never ∨ u = .empty) ↔ ∀ part ∈ parts, ¬part.Bottom → part.Vacant := by
      refine (h.forall_iff fun _ _ _ _ hu ↦ ?_).symm
      rw [← hu.never_iff, ← hu.empty_iff, or_iff_not_imp_left]
    rw [Env.joined_eq_empty_iff (parts_normal h), empty_mem_iff h, hrest, Tree.vacant_group_iff]
    simp

theorem means_inter : Means limit (.group (.atom "inter" :: parts)) ((Env.vacant limit).met us) where
  normal := Env.normal_met (parts_normal h)
  wellFormed := (Env.met_closed Ty.wellFormed_closed (fun u hu ↦ (parts_normal h u hu).settled.sound)
    (fun u hu ↦ (parts_normal h u hu).canonical) (parts_wellFormed h)).2.2
  never_iff := by
    rw [Env.met_eq_never_iff (parts_normal h), never_mem_iff h, Tree.bottom_group_iff]
    simp
  any_iff := by
    rw [Env.met_eq_any_iff (parts_normal h), all_any_iff h, Tree.top_group_iff]
    simp
  empty_iff := by
    have hrest : (∀ u ∈ us, u = .any ∨ u = .empty) ↔ ∀ part ∈ parts, ¬part.Top → part.Vacant := by
      refine (h.forall_iff fun _ _ _ _ hu ↦ ?_).symm
      rw [← hu.any_iff, ← hu.empty_iff, or_iff_not_imp_left]
    rw [Env.met_eq_empty_iff (parts_normal h), empty_mem_iff h, hrest, Tree.vacant_group_iff]
    simp

end Parts

/-- A group that is no union or intersection stands for a type that is neither `never`, `any` nor `Empty`. -/
theorem means_other {items : List Tree} (hn : Normal limit u) (hw : u.WellFormed)
    (hu : u ≠ .never ∧ u ≠ .any ∧ u ≠ .empty)
    (hi : ∀ name ∈ ["union", "inter"], items.head? ≠ some (.atom name)) : Means limit (.group items) u := by
  have hunion (parts : List Tree) : items ≠ .atom "union" :: parts := by
    rintro rfl
    exact hi "union" (by decide) rfl
  have hinter (parts : List Tree) : items ≠ .atom "inter" :: parts := by
    rintro rfl
    exact hi "inter" (by decide) rfl
  refine ⟨hn, hw, iff_of_false hu.1 ?_, iff_of_false hu.2.1 ?_, iff_of_false hu.2.2 ?_⟩
  · simp [Tree.bottom_group_iff, hunion, hinter]
  · simp [Tree.top_group_iff, hunion, hinter]
  · simp [Tree.vacant_group_iff, hunion, hinter]

theorem pred_not_extreme (u : Ty) : Ty.pred u ≠ .never ∧ Ty.pred u ≠ .any ∧ Ty.pred u ≠ .empty :=
  ⟨Ty.noConfusion, Ty.noConfusion, Ty.noConfusion⟩

theorem proc_not_extreme (us : List Ty) (u : Ty) :
    Ty.proc us u ≠ .never ∧ Ty.proc us u ≠ .any ∧ Ty.proc us u ≠ .empty :=
  ⟨Ty.noConfusion, Ty.noConfusion, Ty.noConfusion⟩

theorem normal_pred (h : Normal limit u) : Normal limit (.pred u) where
  named := h.named
  whole := .node nofun (List.forall_mem_singleton.2 h.whole)
  canonical := .node (List.forall_mem_singleton.2 h.canonical) nofun nofun

theorem normal_proc (hp : ∀ p ∈ us, Normal limit p) (hr : Normal limit u) : Normal limit (.proc us u) where
  named v hv := by
    rcases List.mem_append.1 hv with hv | hv
    · obtain ⟨p, hm, hvp⟩ := Ty.mem_varsEach.1 hv
      exact (hp p hm).named v hvp
    · exact hr.named v hv
  whole := .node nofun (List.forall_mem_append.2 ⟨fun p hm ↦ (hp p hm).whole, List.forall_mem_singleton.2 hr.whole⟩)
  canonical := by
    refine .node (List.forall_mem_append.2 ⟨fun p hm ↦ (hp p hm).canonical, ?_⟩) nofun nofun
    exact List.forall_mem_singleton.2 hr.canonical

theorem denoteEach_eq_ok_iff :
    denoteEach limit trees = .ok us ↔ List.Forall₂ (fun tree u ↦ denote limit tree = .ok u) trees us := by
  induction trees generalizing us with
  | nil =>
    rw [denoteEach, List.forall₂_nil_left_iff]
    exact ⟨fun h ↦ (Except.ok.inj h).symm, fun h ↦ h ▸ rfl⟩
  | cons tree trees ih =>
    rw [denoteEach]
    constructor
    · intro h
      obtain ⟨t, ht, h⟩ := exists_of_bind_eq_ok h
      obtain ⟨ts, hts, h⟩ := exists_of_bind_eq_ok h
      cases h
      exact .cons ht (ih.1 hts)
    · intro h
      cases h with
      | cons ht hts =>
        rw [ht, ih.2 hts]
        rfl

theorem denoteEach_means
    (h : ∀ tree ∈ trees, ∀ u, denote limit tree = .ok u → tree.IsType ∧ Means limit tree u)
    (hus : denoteEach limit trees = .ok us) :
    (∀ tree ∈ trees, tree.IsType) ∧ Matched (Means limit) trees us := by
  have hmatch := Matched.of_forall₂ (denoteEach_eq_ok_iff.1 hus)
  refine ⟨fun tree ht ↦ ?_, hmatch.imp fun tree ht u _ hu ↦ (h tree ht u hu).2⟩
  obtain ⟨u, -, hu⟩ := hmatch.left tree ht
  exact (h tree ht u hu).1

theorem denoteSingle_eq_ok_iff {t : Ty} : denoteSingle tree t = .ok u ↔ u = t ∧ t.isTuple = false := by
  unfold denoteSingle
  split
  · next h => simp [h]
  · next h => simpa [h] using eq_comm

theorem denoteParams_eq_ok_iff :
    denoteParams limit trees = .ok us ↔
      List.Forall₂ (fun tree u ↦ denote limit tree = .ok u ∧ u.isTuple = false) trees us := by
  induction trees generalizing us with
  | nil =>
    rw [denoteParams, List.forall₂_nil_left_iff]
    exact ⟨fun h ↦ (Except.ok.inj h).symm, fun h ↦ h ▸ rfl⟩
  | cons tree trees ih =>
    rw [denoteParams]
    constructor
    · intro h
      obtain ⟨t, ht, hsingle⟩ := exists_of_bind_eq_ok h
      obtain ⟨s, hs, hrest⟩ := exists_of_bind_eq_ok hsingle
      obtain ⟨ts, hts, he⟩ := exists_of_bind_eq_ok hrest
      obtain ⟨rfl, htuple⟩ := denoteSingle_eq_ok_iff.1 hs
      cases he
      exact .cons ⟨ht, htuple⟩ (ih.1 hts)
    · intro h
      cases h with
      | cons ht hts =>
        rw [ht.1]
        change denoteSingle tree _ >>= _ = _
        rw [denoteSingle_eq_ok_iff.2 ⟨rfl, ht.2⟩, ih.2 hts]
        rfl

/-- A tree that stands for a type is a type expression, and can be told to stand for `never`, `any` or `Empty`. -/
theorem denote_means (h : denote limit tree = .ok u) : tree.IsType ∧ Means limit tree u := by
  induction tree using Clause.tree_induction generalizing u with
  | atom name =>
    rw [denote] at h
    exact denoteAtom_means h
  | literal text =>
    rw [denote] at h
    cases h
  | group items ih =>
    rw [denote_group] at h
    obtain ⟨clause, hc, h⟩ := exists_of_bind_eq_ok h
    have hsub : ∀ tree ∈ clause.trees, ∀ v, denote limit tree = .ok v → tree.IsType ∧ Means limit tree v :=
      fun tree ht v hv ↦ ih clause hc tree ht hv
    cases Clause.ofItems_eq_ok_iff.1 hc with
    | @union parts hne =>
      obtain ⟨us, hus, h⟩ := exists_of_bind_eq_ok h
      cases h
      obtain ⟨htypes, hmatch⟩ := denoteEach_means hsub hus
      exact ⟨.union hne htypes, means_union hmatch⟩
    | @inter parts hne =>
      obtain ⟨us, hus, h⟩ := exists_of_bind_eq_ok h
      cases h
      obtain ⟨htypes, hmatch⟩ := denoteEach_means hsub hus
      exact ⟨.inter hne htypes, means_inter hmatch⟩
    | pred inner =>
      obtain ⟨v, hv, h⟩ := exists_of_bind_eq_ok h
      cases h
      obtain ⟨htype, hmeans⟩ := hsub inner List.mem_cons_self v hv
      refine ⟨.pred htype, means_other (normal_pred hmeans.normal) ?_ (pred_not_extreme v) (by simp)⟩
      exact .node trivial (List.forall_mem_singleton.2 hmeans.wellFormed)
    | @proc params types result hhead hp hparams hstar hempty hne hr =>
      obtain ⟨htypes, hresult⟩ := List.forall_mem_append.1 hsub
      obtain ⟨us, hus, hrest⟩ := exists_of_bind_eq_ok h
      obtain ⟨v, hv, hsingle⟩ := exists_of_bind_eq_ok hrest
      obtain ⟨w, hw, he⟩ := exists_of_bind_eq_ok hsingle
      obtain ⟨rfl, htuple⟩ := denoteSingle_eq_ok_iff.1 hw
      cases he
      have hmatch := Matched.of_forall₂ (denoteParams_eq_ok_iff.1 hus)
      have hparts : ∀ p ∈ us, Normal limit p ∧ p.WellFormed ∧ p.isTuple = false := by
        intro p hm
        obtain ⟨type, ht, hd, hpt⟩ := hmatch.right p hm
        have hmeans := (htypes type ht p hd).2
        exact ⟨hmeans.normal, hmeans.wellFormed, hpt⟩
      obtain ⟨hrtype, hrmeans⟩ := hresult _ List.mem_cons_self w hv
      constructor
      · have hexists {type : Tree} (ht : type ∈ types) : type.IsType ∧ ¬type.Vacant := by
          obtain ⟨p, -, hd, hpt⟩ := hmatch.left type ht
          obtain ⟨htype, hmeans⟩ := htypes type ht p hd
          exact ⟨htype, hmeans.isTuple_eq_false_iff.1 hpt⟩
        exact .proc hhead hp hparams (fun type ht ↦ (hexists ht).1) (fun type ht ↦ (hexists ht).2) hne hr hrtype
          (hrmeans.isTuple_eq_false_iff.1 htuple)
      · refine means_other (normal_proc (fun p hm ↦ (hparts p hm).1) hrmeans.normal) (.node ?_ ?_)
          (proc_not_extreme us w) fun name hn ↦ ?_
        · exact List.forall_mem_append.2 ⟨fun p hm ↦ (hparts p hm).2.2, List.forall_mem_singleton.2 htuple⟩
        · exact List.forall_mem_append.2
            ⟨fun p hm ↦ (hparts p hm).2.1, List.forall_mem_singleton.2 hrmeans.wellFormed⟩
        · rw [List.head?_append_of_ne_nil params hparams.ne_nil]
          exact hhead name (List.mem_append_left ["is?"] hn)

theorem exists_forall₂ {P : Tree → Ty → Prop} (h : ∀ tree ∈ trees, ∃ u, P tree u) : ∃ us, List.Forall₂ P trees us := by
  induction trees with
  | nil => exact ⟨[], .nil⟩
  | cons tree trees ih =>
    obtain ⟨⟨u, hu⟩, htl⟩ := List.forall_mem_cons.1 h
    obtain ⟨us, hus⟩ := ih htl
    exact ⟨u :: us, .cons hu hus⟩

theorem not_isType_star : ¬(Tree.atom "*").IsType := by
  intro h
  obtain ⟨u, hu⟩ := exists_denoteAtom h
  simp [denoteAtom, Kind.ofKeyword?, reserved] at hu

/-- Every type expression stands for a type. -/
theorem exists_denote (limit : Int64) (h : tree.IsType) : ∃ u, denote limit tree = .ok u := by
  induction h with
  | keyword hk =>
    rw [denote]
    exact exists_denoteAtom (.keyword hk)
  | empty =>
    rw [denote]
    exact exists_denoteAtom .empty
  | var hr hs =>
    rw [denote]
    exact exists_denoteAtom (.var hr hs)
  | union hne _ ih =>
    obtain ⟨us, hus⟩ := exists_forall₂ ih
    rw [denote_group, Clause.ofItems_eq_ok_iff.2 (.union hne)]
    change ∃ u, denoteEach limit _ >>= _ = .ok u
    rw [denoteEach_eq_ok_iff.2 hus]
    exact ⟨_, rfl⟩
  | inter hne _ ih =>
    obtain ⟨us, hus⟩ := exists_forall₂ ih
    rw [denote_group, Clause.ofItems_eq_ok_iff.2 (.inter hne)]
    change ∃ u, denoteEach limit _ >>= _ = .ok u
    rw [denoteEach_eq_ok_iff.2 hus]
    exact ⟨_, rfl⟩
  | pred _ ih =>
    obtain ⟨u, hu⟩ := ih
    rw [denote_group, Clause.ofItems_eq_ok_iff.2 (.pred _)]
    change ∃ v, denote limit _ >>= _ = .ok v
    rw [hu]
    exact ⟨_, rfl⟩
  | @proc params types result hhead hp hparams htypes hvacant hne hr _ hrvacant ih ihr =>
    have hstar : ∀ type ∈ types, type ≠ .atom "*" := by
      rintro _ hm rfl
      exact not_isType_star (htypes _ hm)
    have hempty : types ≠ [.atom "Empty"] := by
      rintro rfl
      exact hvacant _ List.mem_cons_self .empty
    have heach : ∀ type ∈ types, ∃ u, denote limit type = .ok u ∧ u.isTuple = false := by
      intro type hm
      obtain ⟨u, hu⟩ := ih type hm
      exact ⟨u, hu, (denote_means hu).2.isTuple_eq_false_iff.2 (hvacant type hm)⟩
    obtain ⟨us, hus⟩ := exists_forall₂ heach
    obtain ⟨v, hv⟩ := ihr
    have htuple := (denote_means hv).2.isTuple_eq_false_iff.2 hrvacant
    rw [denote_group, Clause.ofItems_eq_ok_iff.2 (.proc hhead hp hparams hstar hempty hne hr)]
    change ∃ u, denoteParams limit types >>= _ = .ok u
    rw [denoteParams_eq_ok_iff.2 hus]
    change ∃ u, denote limit (Clause.resultTree result) >>= _ = .ok u
    rw [hv]
    change ∃ u, denoteSingle _ v >>= _ = .ok u
    rw [denoteSingle_eq_ok_iff.2 ⟨rfl, htuple⟩]
    exact ⟨_, rfl⟩

end Parser

namespace Step

/-- A tree is parsed exactly if it is a type expression; the type is well-formed, and is the empty tuple exactly if
the tree stands for it. -/
theorem parseTree_eq_ok_iff_isType (tree : Tree) (context : Context) :
    ((∃ t after, (parseTree tree).run context = (.ok t, after)) ↔ tree.IsType) ∧
      ∀ t after, (parseTree tree).run context = (.ok t, after) → t.WellFormed ∧ (t = .empty ↔ tree.Vacant) := by
  have hparse := parseTree_realizes tree context
  refine ⟨⟨?_, ?_⟩, ?_⟩
  · rintro ⟨t, after, hrun⟩
    obtain ⟨u, hu, -⟩ := hparse.of_run_ok hrun
    exact (Parser.denote_means hu).1
  · intro htype
    obtain ⟨u, hu⟩ := Parser.exists_denote context.limit htype
    rw [hu] at hparse
    obtain ⟨t, after, hrun, -⟩ := hparse.exists_of_ok
    exact ⟨t, after, hrun⟩
  · intro t after hrun
    obtain ⟨u, hu, hdetached⟩ := hparse.of_run_ok hrun
    obtain ⟨-, hmeans⟩ := Parser.denote_means hu
    obtain ⟨-, rfl⟩ := hdetached
    refine ⟨Ty.wellFormed_of_detached hmeans.wellFormed, ?_⟩
    rw [← hmeans.empty_iff]
    cases t <;> simp [Ty.detached, Ty.rename]

theorem parseTree_eq_ok_iff_isType_union :
    ∃ t after, (parseTree (.group (["T", "->", "union", "number", "T"].map .atom))).run {} = (.ok t, after) := by
  have hname : (Tree.atom "T").IsType := .var (by decide) (by decide)
  have hparts : ∀ part ∈ [Tree.atom "number", .atom "T"], part.IsType :=
    List.forall_mem_cons.2 ⟨.keyword rfl, List.forall_mem_singleton.2 hname⟩
  have hresult : (Clause.resultTree [.atom "union", .atom "number", .atom "T"]).IsType :=
    .union (List.cons_ne_nil _ _) hparts
  have hvacant : ¬(Clause.resultTree [.atom "union", .atom "number", .atom "T"]).Vacant := by
    simp [Clause.resultTree, Tree.vacant_group_iff, Tree.vacant_atom_iff]
  have hparam : ¬(Tree.atom "T").Vacant := by
    simp [Tree.vacant_atom_iff]
  refine (parseTree_eq_ok_iff_isType _ {}).1.2 ?_
  exact .proc (by simp) (by simp) (.some (.one _)) (List.forall_mem_singleton.2 hname)
    (List.forall_mem_singleton.2 hparam) (List.cons_ne_nil _ _) (by simp) hresult hvacant

end Step

end TypeAlgebra
