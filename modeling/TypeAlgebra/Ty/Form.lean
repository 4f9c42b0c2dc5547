import TypeAlgebra.Problem
import TypeAlgebra.Tree.Basic
import TypeAlgebra.Ty.Basic

namespace TypeAlgebra

namespace Form

/-- The elements of a tuple with a star between them; without elements, the word `Empty`. -/
def tuple : List (List Tree) → List Tree
  | [] => [.atom "Empty"]
  | elems => [Tree.atom "*"].intercalate elems

def proc (params : List (List Tree)) (result : List Tree) : List Tree :=
  [.group (tuple params ++ .atom "->" :: result)]

/-- A union nests to the right, two parts at a time. -/
def union : List (List Tree) → Tree
  | [] => .group [.atom "union"]
  | [part] => .group (.atom "union" :: part)
  | [first, second] => .group (.atom "union" :: first ++ second)
  | first :: second :: third :: rest =>
    .group (.atom "union" :: first ++ [union (second :: third :: rest)])

def inter (parts : List (List Tree)) : Tree :=
  .group (.atom "inter" :: parts.flatten)

def pred (inner : List Tree) : Tree :=
  .group (.atom "is?" :: inner)

end Form

namespace Ty

mutual

/-- The type as written, variables by their names; nothing if it holds `absent`. -/
def form? : Ty → Option (List Tree)
  | absent => none
  | atomic kind => some [.atom kind.keyword]
  | var v => some [.atom v.name]
  | proc params result => do
    let params ← formEach? params
    let result ← result.form?
    return Form.proc params result
  | empty => some (Form.tuple [])
  | tuple elems => do return Form.tuple (← formEach? elems)
  | union parts => do return [Form.union (← formEach? parts)]
  | inter parts => do return [Form.inter (← formEach? parts)]
  | pred inner => do return [Form.pred (← inner.form?)]

def formEach? : List Ty → Option (List (List Tree))
  | [] => some []
  | t :: ts => do
    let form ← t.form?
    let forms ← formEach? ts
    return form :: forms

end

def noValue : Problem :=
  .unprintable "no value"

/-- The written form, or in angle brackets why there is none. -/
def text (t : Ty) : String :=
  match t.form? with
  | some trees => Tree.format trees
  | none => "<" ++ noValue.message ++ ">"

end Ty

end TypeAlgebra
