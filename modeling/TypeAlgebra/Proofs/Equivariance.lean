import TypeAlgebra.Proofs.Correspondence
import TypeAlgebra.Proofs.Spelling
import TypeAlgebra.Proofs.Denotation

namespace TypeAlgebra

structure IsRenaming (r : String → String) : Prop where
  name {n : String} : IsName n → IsName (r n)
  injective {m n : String} : IsName m → IsName n → r m = r n → m = n

theorem isRenaming_swap {m n : String} (hm : IsName m) (hn : IsName n) : IsRenaming (Equiv.swap m n) where
  name {k} hk := by
    rw [Equiv.swap_apply_def]
    split_ifs
    · exact hn
    · exact hm
    · exact hk
  injective _ _ h := (Equiv.swap m n).injective h

def RenamedTo (r : String → String) (m n : String) : Prop :=
  IsName m ∧ n = r m

theorem IsRenaming.biUnique {r : String → String} (hr : IsRenaming r) : Relator.BiUnique (RenamedTo r) :=
  ⟨fun _ _ _ h h' ↦ hr.injective h.1 h'.1 (h.2.symm.trans h'.2), fun _ _ _ h h' ↦ h.2.trans h'.2.symm⟩

def Clause.words : List String :=
  "Empty" :: Parser.reserved

theorem IsName.ne_word {name word : String} (hn : IsName name) (hw : word ∈ Clause.words) : name ≠ word := by
  rintro rfl
  rcases List.mem_cons.1 hw with he | hr
  · exact hn.empty he
  · exact hn.reserved hr

namespace Tree

mutual

def rename (r : String → String) : Tree → Tree
  | atom text => atom (if IsName text then r text else text)
  | literal text => literal text
  | group items => group (renameEach r items)

def renameEach (r : String → String) : List Tree → List Tree
  | [] => []
  | tree :: trees => tree.rename r :: renameEach r trees

end

variable {r : String → String} {tree : Tree} {word : String}

theorem renameEach_eq (r : String → String) (trees : List Tree) :
    renameEach r trees = trees.map (rename r) := by
  induction trees with
  | nil => rfl
  | cons tree trees ih => rw [renameEach, ih, List.map_cons]

theorem rename_group (r : String → String) (items : List Tree) :
    (group items).rename r = group (items.map (rename r)) := by
  rw [rename, renameEach_eq]

theorem isAtom_eq_true : tree.isAtom word = true ↔ tree = atom word := by
  cases tree <;> simp [isAtom]

theorem worded_rename (hr : IsRenaming r) (h : tree.Worded) : (tree.rename r).Worded := by
  induction h with
  | @atom text hw =>
    rw [rename]
    refine .atom ?_
    split
    · next hn => exact (hr.name hn).word
    · exact hw
  | literal text => exact .literal text
  | group _ ih =>
    rw [rename_group]
    exact .group (List.forall_mem_map.2 ih)

/-- Renaming leaves the words of the grammar alone and makes no new ones. -/
theorem isAtom_rename (hr : IsRenaming r) (hw : word ∈ Clause.words) (tree : Tree) :
    (tree.rename r).isAtom word = tree.isAtom word := by
  cases tree with
  | atom text =>
    rw [rename, isAtom, isAtom]
    split
    · next hn => rw [beq_eq_false_iff_ne.2 (hn.ne_word hw), beq_eq_false_iff_ne.2 ((hr.name hn).ne_word hw)]
    · rfl
  | literal text => rfl
  | group items =>
    rw [rename_group]
    rfl

theorem rename_word (r : String → String) (hw : word ∈ Clause.words) : (atom word).rename r = atom word := by
  rw [rename, if_neg fun hn ↦ hn.ne_word hw rfl]

def ofWords (words : List String) : Tree :=
  group (words.map atom)

theorem legible_ofWords {words : List String} (h : ∀ word ∈ words, IsWord word) : (ofWords words).Legible :=
  .group (List.forall_mem_map.2 fun word hw ↦ .atom (h word hw))

end Tree

namespace Clause

variable {r : String → String} {items params rest trees : List Tree}

def rename (r : String → String) : Clause → Clause
  | union parts => union (parts.map (Tree.rename r))
  | inter parts => inter (parts.map (Tree.rename r))
  | pred inner => pred (inner.rename r)
  | proc params result => proc (params.map (Tree.rename r)) (result.rename r)

section

variable (hr : IsRenaming r)

include hr

theorem betweenStars_rename (params params' : List Tree) (position position' : Nat) :
    Coupling.together.rel (fun types types' ↦ types' = types.map (Tree.rename r))
      (betweenStars params position trees) (betweenStars params' position' (trees.map (Tree.rename r))) := by
  have hstar (tree : Tree) : (tree.rename r).isAtom "*" = tree.isAtom "*" :=
    Tree.isAtom_rename hr (by decide) tree
  fun_induction betweenStars params position trees generalizing position' with
  | case1 => exact .inr ⟨_, _, rfl, rfl⟩
  | case2 position tree rest hs =>
    rw [List.map_cons, betweenStars.eq_def]
    simp only [hstar, if_pos hs]
    exact .inr ⟨_, _, rfl, rfl⟩
  | case3 position tree hs =>
    rw [List.map_singleton, betweenStars, hstar, if_neg hs]
    exact .inl ⟨_, _, rfl, rfl, rfl⟩
  | case4 position tree hs star rest hs' ih =>
    rw [List.map_cons, List.map_cons, betweenStars, hstar, if_neg hs, hstar, if_pos hs']
    rcases ih (position' + 2) with ⟨types, _, ht, ht', rfl⟩ | ⟨e, e', he, he'⟩
    · rw [ht, ht']
      exact .inl ⟨_, _, rfl, rfl, rfl⟩
    · rw [he, he']
      exact .inr ⟨_, _, rfl, rfl⟩
  | case5 position tree hs star rest hs' =>
    rw [List.map_cons, List.map_cons, betweenStars, hstar, if_neg hs, hstar, if_neg hs']
    exact .inr ⟨_, _, rfl, rfl⟩

omit hr in
theorem paramTypes_of_ne (h : params ≠ [.atom "Empty"]) : paramTypes params = betweenStars params 0 params := by
  unfold paramTypes
  split
  · exact absurd rfl h
  · rfl

theorem paramTypes_rename (params : List Tree) :
    Coupling.together.rel (fun types types' ↦ types' = types.map (Tree.rename r)) (paramTypes params)
      (paramTypes (params.map (Tree.rename r))) := by
  by_cases he : params = [.atom "Empty"]
  · rw [he, List.map_singleton, Tree.rename_word r (by decide)]
    exact .inl ⟨_, _, rfl, rfl, rfl⟩
  · have he' : params.map (Tree.rename r) ≠ [.atom "Empty"] := by
      intro h
      obtain ⟨tree, rfl, ht⟩ := List.map_eq_singleton_iff.1 h
      have hatom : (tree.rename r).isAtom "Empty" = tree.isAtom "Empty" :=
        Tree.isAtom_rename hr (by decide) tree
      rw [Tree.isAtom_eq_true.2 ht] at hatom
      exact he (congrArg ([·]) (Tree.isAtom_eq_true.1 hatom.symm))
    rw [paramTypes_of_ne he, paramTypes_of_ne he']
    exact betweenStars_rename hr _ _ _ _

theorem arrowFlaw?_rename (params rest : List Tree) :
    arrowFlaw? (params.map (Tree.rename r)) (rest.map (Tree.rename r)) = arrowFlaw? params rest := by
  have harrow : (Tree.isAtom "->" ∘ Tree.rename r) = Tree.isAtom "->" :=
    funext fun tree ↦ Tree.isAtom_rename hr (by decide) tree
  cases rest with
  | nil => rfl
  | cons arrow result =>
    rw [List.map_cons, arrowFlaw?, arrowFlaw?, List.isEmpty_map, List.isEmpty_map, List.any_map, harrow]

omit hr in
theorem resultTree_rename (trees : List Tree) :
    resultTree (trees.map (Tree.rename r)) = (resultTree trees).rename r := by
  rcases trees with _ | ⟨first, _ | ⟨second, trees⟩⟩
  · rfl
  · rfl
  · exact (Tree.rename_group r (first :: second :: trees)).symm

theorem ofProc_rename (items : List Tree) :
    Coupling.together.rel (fun clause clause' ↦ clause' = clause.rename r) (ofProc items)
      (ofProc (items.map (Tree.rename r))) := by
  have harrow : ((!Tree.isAtom "->" ·) ∘ Tree.rename r) = (!Tree.isAtom "->" ·) :=
    funext fun tree ↦ congrArg not (Tree.isAtom_rename hr (by decide) tree)
  unfold ofProc
  simp only [List.takeWhile_map, List.dropWhile_map, harrow, arrowFlaw?_rename hr, ← List.map_drop,
    resultTree_rename]
  split
  · exact .inr ⟨_, _, rfl, rfl⟩
  · rcases paramTypes_rename hr (items.takeWhile (!Tree.isAtom "->" ·)) with
      ⟨types, _, ht, ht', rfl⟩ | ⟨e, e', he, he'⟩
    · rw [ht, ht']
      exact .inl ⟨_, _, rfl, rfl, rfl⟩
    · rw [he, he']
      exact .inr ⟨_, _, rfl, rfl⟩

/-- The items of a group are read in the same way, or refused, whatever the names of the variables are. -/
theorem ofItems_rename (items : List Tree) :
    Coupling.together.rel (fun clause clause' ↦ clause' = clause.rename r) (ofItems items)
      (ofItems (items.map (Tree.rename r))) := by
  rcases items with _ | ⟨first, rest⟩
  · exact .inr ⟨_, _, rfl, rfl⟩
  by_cases hproc : ∀ name ∈ ["union", "inter", "is?"], first.isAtom name = false
  · have hproc' : ∀ name ∈ ["union", "inter", "is?"], (first.rename r).isAtom name = false := by
      intro name hn
      rw [Tree.isAtom_rename hr (List.mem_of_mem_drop (i := 3) hn)]
      exact hproc name hn
    rw [List.map_cons, Parser.ofItems_eq_ofProc hproc, Parser.ofItems_eq_ofProc hproc', ← List.map_cons]
    exact ofProc_rename hr (first :: rest)
  · simp only [not_forall, Bool.not_eq_false] at hproc
    obtain ⟨name, hn, hfirst⟩ := hproc
    rw [Tree.isAtom_eq_true.1 hfirst, List.map_cons, Tree.rename_word r (List.mem_of_mem_drop (i := 3) hn)]
    simp only [List.mem_cons, List.not_mem_nil, or_false] at hn
    rcases hn with rfl | rfl | rfl
    · cases rest with
      | nil => exact .inr ⟨_, _, rfl, rfl⟩
      | cons => exact .inl ⟨_, _, rfl, rfl, rfl⟩
    · cases rest with
      | nil => exact .inr ⟨_, _, rfl, rfl⟩
      | cons => exact .inl ⟨_, _, rfl, rfl, rfl⟩
    · rcases rest with _ | ⟨inner, _ | ⟨second, rest⟩⟩
      · exact .inr ⟨_, _, rfl, rfl⟩
      · exact .inl ⟨_, _, rfl, rfl, rfl⟩
      · exact .inr ⟨_, _, rfl, rfl⟩

end

end Clause

namespace Parser

open Env (Corresponds Spelled)

variable {limit : Int64} {r : String → String} {tree : Tree} {trees : List Tree} {s t u : Ty}

/-- A tree of words stands for a type that can be written. -/
theorem denote_spelled (hw : tree.Worded) (h : denote limit tree = .ok u) : Spelled limit u := by
  let context : Context := { limit }
  have hf : Context.Fresh 0 context := fresh_length context
  have hd : Step.Realizes (parseTree 0 tree) context Detached (.ok u) := h ▸ parseTree_denotes 0 tree context hf
  obtain ⟨t, after, hrun, hg, -, rfl⟩ := hd.exists_of_ok
  obtain ⟨-, hlegible⟩ := parseTree_yields hw context hf t after hrun
  have hlimit : after.limit = limit := hg.limit
  exact hlimit ▸ hlegible.spelled

/-- With other names, the tree is refused as before or stands for a type that corresponds to the former one. -/
def Equivariant (limit : Int64) (r : String → String) (tree : Tree) : Prop :=
  Coupling.together.rel (Corresponds limit (RenamedTo r)) (denote limit tree) (denote limit (tree.rename r))

theorem equivariant_of_renames (hr : IsRenaming r) (hw : tree.Worded)
    (h : Coupling.together.rel (Ty.Renames (RenamedTo r)) (denote limit tree) (denote limit (tree.rename r))) :
    Equivariant limit r tree := by
  rcases h with ⟨u, v, hu, hv, huv⟩ | h
  · exact .inl ⟨u, v, hu, hv, denote_spelled hw hu, denote_spelled (Tree.worded_rename hr hw) hv, huv⟩
  · exact .inr h

theorem denoteAtom_of_name {name : String} (h : IsName name) : denoteAtom name = .ok (.var ⟨name, none⟩) := by
  rw [denoteAtom, h.keyword]
  simp only [if_neg h.empty, if_neg h.reserved, if_pos h.starts]

/-- An atom that is no name is a keyword, or is refused. -/
theorem denoteAtom_of_not_name {name : String} (hw : IsWord name) (h : ¬IsName name) :
    (∃ kind, denoteAtom name = .ok (.atomic kind)) ∨ denoteAtom name = .ok .empty ∨
      ∃ problem, denoteAtom name = .error problem := by
  unfold denoteAtom
  split
  · exact .inl ⟨_, rfl⟩
  · next hk =>
    split_ifs with he hres hs
    · exact .inr (.inl rfl)
    · exact .inr (.inr ⟨_, rfl⟩)
    · exact absurd ⟨hw, hk, he, hres, hs⟩ h
    · exact .inr (.inr ⟨_, rfl⟩)

theorem denoteAtom_rename (hr : IsRenaming r) {text : String} (hw : IsWord text) :
    Coupling.together.rel (Ty.Renames (RenamedTo r)) (denoteAtom text)
      (denoteAtom (if IsName text then r text else text)) := by
  split
  · next hn =>
    rw [denoteAtom_of_name hn, denoteAtom_of_name (hr.name hn)]
    exact .inl ⟨_, _, rfl, rfl, .var ⟨hn, rfl⟩⟩
  · next hn =>
    rcases denoteAtom_of_not_name hw hn with ⟨kind, he⟩ | he | ⟨problem, he⟩
    · exact .inl ⟨_, _, he, he, .atomic kind⟩
    · exact .inl ⟨_, _, he, he, .empty⟩
    · exact .inr ⟨_, _, he, he⟩

theorem denoteSingle_rename {tree' : Tree} (h : Corresponds limit (RenamedTo r) s t) :
    Coupling.together.rel (Corresponds limit (RenamedTo r)) (denoteSingle tree s) (denoteSingle tree' t) := by
  rw [denoteSingle, denoteSingle, h.isTuple]
  split
  · exact .inr ⟨_, _, rfl, rfl⟩
  · exact .inl ⟨_, _, rfl, rfl, h⟩

theorem denoteEach_rename (h : ∀ tree ∈ trees, Equivariant limit r tree) :
    Coupling.together.rel (List.Forall₂ (Corresponds limit (RenamedTo r))) (denoteEach limit trees)
      (denoteEach limit (trees.map (Tree.rename r))) := by
  induction trees with
  | nil =>
    rw [List.map_nil, denoteEach]
    exact Coupling.together.rel_pure .nil
  | cons tree trees ih =>
    obtain ⟨hd, htl⟩ := List.forall_mem_cons.1 h
    rw [List.map_cons, denoteEach, denoteEach]
    refine Coupling.together.rel_bind hd fun u v huv ↦ ?_
    exact Coupling.together.rel_bind (ih htl) fun us vs hs ↦ Coupling.together.rel_pure (.cons huv hs)

theorem denoteParams_rename (h : ∀ tree ∈ trees, Equivariant limit r tree) :
    Coupling.together.rel (List.Forall₂ (Corresponds limit (RenamedTo r))) (denoteParams limit trees)
      (denoteParams limit (trees.map (Tree.rename r))) := by
  induction trees with
  | nil =>
    rw [List.map_nil, denoteParams]
    exact Coupling.together.rel_pure .nil
  | cons tree trees ih =>
    obtain ⟨hd, htl⟩ := List.forall_mem_cons.1 h
    rw [List.map_cons, denoteParams, denoteParams]
    refine Coupling.together.rel_bind hd fun u v huv ↦ ?_
    refine Coupling.together.rel_bind (denoteSingle_rename huv) fun u v huv ↦ ?_
    exact Coupling.together.rel_bind (ih htl) fun us vs hs ↦ Coupling.together.rel_pure (.cons huv hs)

theorem denoteClause_rename (hl : limit ≤ 0) (hr : IsRenaming r) {clause : Clause}
    (h : ∀ tree ∈ clause.trees, Equivariant limit r tree) :
    Coupling.together.rel (Ty.Renames (RenamedTo r)) (denoteClause limit clause)
      (denoteClause limit (clause.rename r)) := by
  cases clause with
  | union parts =>
    refine Coupling.together.rel_bind (denoteEach_rename h) fun us vs hs ↦ Coupling.together.rel_pure ?_
    have hm := Matched.of_forall₂ hs
    exact (Env.corresponds_joined hl hr.biUnique (hm.forall_left fun _ _ h ↦ h.left)
      (hm.forall_right fun _ _ h ↦ h.right) (Env.matched_alternativesEach hm)).renames
  | inter parts =>
    refine Coupling.together.rel_bind (denoteEach_rename h) fun us vs hs ↦ Coupling.together.rel_pure ?_
    exact (Env.corresponds_met hl hr.biUnique (.of_forall₂ hs)).renames
  | pred inner =>
    refine Coupling.together.rel_bind (h inner List.mem_cons_self) fun u v huv ↦ ?_
    exact Coupling.together.rel_pure (.pred huv.renames)
  | proc params result =>
    obtain ⟨hparams, hresult⟩ := List.forall_mem_append.1 h
    refine Coupling.together.rel_bind (denoteParams_rename hparams) fun us vs hs ↦ ?_
    refine Coupling.together.rel_bind (hresult result List.mem_cons_self) fun u v huv ↦ ?_
    refine Coupling.together.rel_bind (denoteSingle_rename huv) fun u v huv ↦ Coupling.together.rel_pure ?_
    exact .proc (hs.imp fun _ _ h ↦ h.renames) huv.renames

theorem equivariant (hl : limit ≤ 0) (hr : IsRenaming r) (hw : tree.Worded) : Equivariant limit r tree := by
  induction tree using Clause.tree_induction with
  | atom name =>
    refine equivariant_of_renames hr hw ?_
    obtain ⟨hword⟩ := hw
    rw [Tree.rename, denote, denote]
    exact denoteAtom_rename hr hword
  | literal text =>
    refine equivariant_of_renames hr hw ?_
    rw [Tree.rename, denote]
    exact .inr ⟨_, _, rfl, rfl⟩
  | group items ih =>
    refine equivariant_of_renames hr hw ?_
    rw [Tree.rename_group, denote_group, denote_group]
    rcases Clause.ofItems_rename hr items with ⟨clause, _, hc, hc', rfl⟩ | ⟨e, e', he, he'⟩
    · rw [hc, hc']
      refine denoteClause_rename hl hr fun tree ht ↦ ?_
      exact ih clause hc tree ht (Clause.worded_ofItems hc hw tree ht)
    · rw [he, he']
      exact .inr ⟨e, e', rfl, rfl⟩

theorem parseEach_realizes_pair (context : Context) (s t : Tree) :
    Step.Realizes (parseEach context.cells.length [s, t]) context DetachesEach
      (denoteEach context.limit [s, t]) :=
  parseEach_realizes (fun tree _ ↦ parseTree_denotes _ tree) (fresh_length context)

theorem length_denoteEach {us : List Ty} (h : denoteEach limit trees = .ok us) : us.length = trees.length := by
  induction trees generalizing us with
  | nil =>
    rw [denoteEach] at h
    cases h
    rfl
  | cons tree trees ih =>
    rw [denoteEach] at h
    cases hd : denote limit tree with
    | error => rw [hd] at h; cases h
    | ok u =>
      cases htl : denoteEach limit trees with
      | error => rw [hd, htl] at h; cases h
      | ok vs =>
        rw [hd, htl] at h
        cases h
        rw [List.length_cons, List.length_cons, ih htl]

/-- Two trees are parsed to two types, which are related as the types that the trees stand for. -/
theorem exists_parsed_pair {context : Context} {s t : Tree} {us : List Ty}
    (h : denoteEach context.limit [s, t] = .ok us) :
    ∃ a b after u v, us = [u, v] ∧ (parseEach context.cells.length [s, t]).run context = (.ok [a, b], after) ∧
      (after.env.subtype a b).outcome = .ok ((Env.vacant context.limit).below u v) := by
  have hd := parseEach_realizes_pair context s t
  rw [h] at hd
  obtain ⟨ts, after, hrun, hg, hfree, rfl⟩ := hd.exists_of_ok
  obtain ⟨a, b, rfl⟩ := List.length_eq_two.1 ((List.length_map _).symm.trans (length_denoteEach h))
  obtain ⟨ha, hb⟩ := List.forall_mem_cons.1 hfree
  have hb := hb b List.mem_cons_self
  refine ⟨a, b, after, _, _, rfl, hrun, ?_⟩
  rw [Env.subtype_eq ha.founded hb.founded, Env.below_detached ha hb, ← hg.limit]
  rfl

/--
The subtype relation does not depend on the names of variables: two trees with common variables are refused
after a renaming if they were refused before, and otherwise the types are related as before.
-/
theorem subtype_renamed {context context' : Context} {left right : String} {s t : Tree} {r : String → String}
    (hl : context.limit ≤ 0) (hl' : context'.limit = context.limit) (hs : Tree.read left = .ok s)
    (ht : Tree.read right = .ok t) (hr : IsRenaming r) :
    (∃ problem after problem' after',
      (parseEach context.cells.length [s, t]).run context = (.error (.problem problem), after) ∧
      (parseEach context'.cells.length [s.rename r, t.rename r]).run context' =
        (.error (.problem problem'), after')) ∨
    ∃ a b after a' b' after' verdict,
      (parseEach context.cells.length [s, t]).run context = (.ok [a, b], after) ∧
      (parseEach context'.cells.length [s.rename r, t.rename r]).run context' = (.ok [a', b'], after') ∧
      (after.env.subtype a b).outcome = .ok verdict ∧ (after'.env.subtype a' b').outcome = .ok verdict := by
  have hboth : ∀ tree ∈ [s, t], Equivariant context.limit r tree :=
    List.forall_mem_cons.2 ⟨equivariant hl hr (Tree.read_worded hs),
      List.forall_mem_singleton.2 (equivariant hl hr (Tree.read_worded ht))⟩
  rcases denoteEach_rename hboth with ⟨us, vs, hus, hvs, hc⟩ | ⟨e, e', he, he'⟩
  · obtain ⟨a, b, after, u, v, rfl, hrun, hsub⟩ := exists_parsed_pair hus
    obtain ⟨a', b', after', u', v', rfl, hrun', hsub'⟩ := exists_parsed_pair (hl' ▸ hvs)
    obtain ⟨hu, hv⟩ := List.forall₂_cons.1 hc
    have hv := (List.forall₂_cons.1 hv).1
    have hverdict : (Env.vacant context.limit).below u v = (Env.vacant context'.limit).below u' v' := by
      rw [Bool.eq_iff_iff, hl']
      exact hu.below_iff hl hr.biUnique hv
    exact .inr ⟨a, b, after, a', b', after', _, hrun, hrun', hsub, hverdict ▸ hsub'⟩
  · have hd := parseEach_realizes_pair context s t
    have hd' := parseEach_realizes_pair context' (s.rename r) (t.rename r)
    rw [he] at hd
    rw [hl'] at hd'
    rw [List.map_cons, List.map_singleton] at he'
    rw [he'] at hd'
    obtain ⟨-, hrun⟩ | _ := hd
    obtain ⟨-, hrun'⟩ | _ := hd'
    exact .inl ⟨e, _, e', _, hrun, hrun'⟩

-- Before the renaming the parts of the intersections are in another order than after it.
theorem subtype_renamed_distributed :
    ∃ a b after,
      (parseEach 0 [
        Tree.rename (Equiv.swap "A" "z") (.group [.atom "inter", .atom "A", .ofWords ["union", "B", "number"]]),
        Tree.rename (Equiv.swap "A" "z") (.group [.atom "union", .atom "string",
          .ofWords ["inter", "A", "number"], .ofWords ["inter", "B", "A"]])]).run {} = (.ok [a, b], after) ∧
      (after.env.subtype a b).outcome = .ok true := by
  let s : Tree := .group [.atom "inter", .atom "A", .ofWords ["union", "B", "number"]]
  let t : Tree := .group [.atom "union", .atom "string", .ofWords ["inter", "A", "number"],
    .ofWords ["inter", "B", "A"]]
  have hs : s.Legible := by
    refine .group (List.forall_mem_cons.2 ⟨.atom (by decide), List.forall_mem_cons.2 ⟨.atom (by decide), ?_⟩⟩)
    exact List.forall_mem_singleton.2 (Tree.legible_ofWords (by decide))
  have ht : t.Legible := by
    refine .group (List.forall_mem_cons.2 ⟨.atom (by decide), List.forall_mem_cons.2 ⟨.atom (by decide), ?_⟩⟩)
    refine List.forall_mem_cons.2 ⟨Tree.legible_ofWords (by decide), ?_⟩
    exact List.forall_mem_singleton.2 (Tree.legible_ofWords (by decide))
  have hafter : ((parseEach 0 [s, t]).run {}).2 = { cells := [⟨"A", none⟩, ⟨"B", none⟩] } := by decide +kernel
  have htypes : ((parseEach 0 [s, t]).run {}).1 =
      .ok [.union [.inter [.var ⟨"A", some 0⟩, .var ⟨"B", some 1⟩],
          .inter [.var ⟨"A", some 0⟩, .atomic .number]],
        .union [.inter [.var ⟨"A", some 0⟩, .var ⟨"B", some 1⟩],
          .inter [.var ⟨"A", some 0⟩, .atomic .number], .atomic .string]] := by decide +kernel
  have hr : IsRenaming (Equiv.swap "A" "z") := isRenaming_swap (by decide) (by decide)
  rcases @subtype_renamed {} {} _ _ s t _ (by decide) rfl (Tree.read_print hs) (Tree.read_print ht) hr with
    ⟨problem, after, -, -, hfailed, -⟩ | ⟨a, b, after, a', b', after', verdict, hparsed, hparsed', hab, hab'⟩
  · cases htypes.symm.trans (congrArg Prod.fst hfailed)
  · cases htypes.symm.trans (congrArg Prod.fst hparsed)
    obtain rfl : _ = after := hafter.symm.trans (congrArg Prod.snd hparsed)
    have hverdict : Except.ok verdict = Except.ok true := hab.symm.trans (by decide +kernel)
    exact ⟨a', b', after', hparsed', Except.ok.inj hverdict ▸ hab'⟩

end Parser

end TypeAlgebra
