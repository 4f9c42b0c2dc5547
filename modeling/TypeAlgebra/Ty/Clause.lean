import TypeAlgebra.Problem
import TypeAlgebra.Tree.Basic

namespace TypeAlgebra

/-- How the items of a group are to be read. This looks at keywords, arrow and stars only, not into the types. -/
inductive Clause where
  | union (parts : List Tree)
  | inter (parts : List Tree)
  | pred (inner : Tree)
  | proc (params : List Tree) (result : Tree)

namespace Clause

/-- The types of a parameter list from `position` on, where types and stars alternate. -/
def betweenStars (params : List Tree) (position : Nat) : List Tree → Except Problem (List Tree)
  | [] => .error (.separator position "" (Tree.format params))
  | tree :: rest =>
    if tree.isAtom "*" then .error (.separator position tree.print (Tree.format params))
    else match rest with
      | [] => .ok [tree]
      | star :: rest =>
        if star.isAtom "*" then
          (betweenStars params (position + 2) rest).map (tree :: ·)
        else .error (.separator (position + 1) star.print (Tree.format params))

/-- The types of a parameter list, which is the word `Empty` if there are none. -/
def paramTypes (params : List Tree) : Except Problem (List Tree) :=
  match params with
  | [.atom "Empty"] => .ok []
  | params => betweenStars params 0 params

def resultTree : List Tree → Tree
  | [tree] => tree
  | trees => .group trees

def arrowFlaw? (params rest : List Tree) : Option ArrowFlaw :=
  match rest with
  | [] => some .missing
  | _ :: result =>
    if params.isEmpty then some .noParams
    else if result.isEmpty then some .noResult
    else if result.any (·.isAtom "->") then some .several
    else none

def ofProc (items : List Tree) : Except Problem Clause :=
  let params := items.takeWhile (!·.isAtom "->")
  let rest := items.dropWhile (!·.isAtom "->")
  match arrowFlaw? params rest with
  | some flaw => .error (.arrow flaw (Tree.group items).print)
  | none => (paramTypes params).map (proc · (resultTree (rest.drop 1)))

def ofItems (items : List Tree) : Except Problem Clause :=
  match items with
  | [] => .error (.emptyForm (Tree.group items).print)
  | [.atom "union"] => .error (.emptyForm (Tree.group items).print)
  | [.atom "inter"] => .error (.emptyForm (Tree.group items).print)
  | .atom "union" :: parts => .ok (union parts)
  | .atom "inter" :: parts => .ok (inter parts)
  | [.atom "is?", inner] => .ok (pred inner)
  | .atom "is?" :: others => .error (.predicateArity others.length (Tree.group items).print)
  | items => ofProc items

/-- A bound on the sizes of the trees that are still to be read. -/
def weight : Clause → Nat
  | union parts => Tree.sizeEach parts
  | inter parts => Tree.sizeEach parts
  | pred inner => inner.size
  | proc params result => max (Tree.sizeEach params) result.size

theorem sizeEach_betweenStars {params trees types : List Tree} {position : Nat}
    (h : betweenStars params position trees = .ok types) :
    Tree.sizeEach types ≤ Tree.sizeEach trees := by
  fun_induction betweenStars params position trees generalizing types with
  | case1 => cases h
  | case2 => cases h
  | case3 => cases h; exact Nat.le_refl _
  | case4 position tree _ star rest _ ih =>
    cases hr : betweenStars params (position + 2) rest with
    | error => rw [hr] at h; cases h
    | ok found =>
      rw [hr] at h
      cases h
      have := ih hr
      simp only [Tree.sizeEach]
      omega
  | case5 => cases h

theorem sizeEach_paramTypes {params types : List Tree} (h : paramTypes params = .ok types) :
    Tree.sizeEach types ≤ Tree.sizeEach params := by
  unfold paramTypes at h
  split at h
  · cases h
    exact Nat.zero_le _
  · exact sizeEach_betweenStars h

theorem size_resultTree (trees : List Tree) :
    (resultTree trees).size ≤ 1 + Tree.sizeEach trees := by
  unfold resultTree
  split <;> simp only [Tree.size, Tree.sizeEach] <;> omega

theorem size_result {params rest : List Tree} (h : arrowFlaw? params rest = none) :
    (resultTree (rest.drop 1)).size ≤ Tree.sizeEach rest := by
  cases rest with
  | nil => cases h
  | cons arrow result =>
    have h₁ := size_resultTree result
    have h₂ := arrow.size_pos
    simp only [List.drop_one, List.tail_cons, Tree.sizeEach]
    omega

theorem weight_ofProc {items : List Tree} {clause : Clause} (h : ofProc items = .ok clause) :
    clause.weight ≤ Tree.sizeEach items := by
  have hs := congrArg Tree.sizeEach
    (List.takeWhile_append_dropWhile (p := (!Tree.isAtom "->" ·)) (l := items))
  rw [Tree.sizeEach_append] at hs
  simp only [ofProc] at h
  split at h
  · cases h
  · next hf =>
    cases ht : paramTypes (items.takeWhile (!Tree.isAtom "->" ·)) with
    | error => rw [ht] at h; cases h
    | ok types =>
      rw [ht] at h
      cases h
      have h₁ := sizeEach_paramTypes ht
      have h₂ := size_result hf
      simp only [weight]
      omega

theorem weight_ofItems {items : List Tree} {clause : Clause} (h : ofItems items = .ok clause) :
    clause.weight ≤ Tree.sizeEach items := by
  unfold ofItems at h
  split at h
  · cases h
  · cases h
  · cases h
  · cases h; simp only [weight, Tree.sizeEach]; omega
  · cases h; simp only [weight, Tree.sizeEach]; omega
  · cases h; simp only [weight, Tree.sizeEach]; omega
  · cases h
  · exact weight_ofProc h

end Clause

end TypeAlgebra
