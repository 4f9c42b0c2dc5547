import TypeAlgebra.Text.Quoted
import TypeAlgebra.Ty.Basic

namespace TypeAlgebra

namespace Dump

def withComma : List String → List String
  | [] => []
  | [line] => [line ++ ","]
  | line :: rest => line :: withComma rest

def separated : List (List String) → List String
  | [] => []
  | [item] => item
  | item :: rest => withComma item ++ separated rest

def braces (head : String) (items : List (List String)) : List String :=
  (head ++ " \x7b") :: (separated items).map ("  " ++ ·) ++ ["\x7d"]

def label (name : String) (lines : List String) : List String :=
  lines.modifyHead (name ++ ": " ++ ·)

def sequence (items : List (List String)) : List String :=
  braces ("([]texp.TExp)" ++ if items.isEmpty then "" else s!" (len={items.length})") items

def ofVar (v : Var) : List String :=
  let cell := (v.cell.map (· + 1)).getD 0
  braces "(texp.TVar)" [
    [s!"Name: (string) (len={v.name.utf8ByteSize}) " ++ Text.quoted v.name],
    [s!"cell: (texp.cellID) {cell}"]]

mutual

def lines : Ty → List String
  | .absent => ["(texp.TExp) <nil>"]
  | .atomic kind => braces "(texp.Atomic)" [["Kind: (texp.AtomicKind) " ++ toString kind.code]]
  | .var v => ofVar v
  | .proc params result =>
    braces "(texp.Proc)" [label "Params" (sequence (linesEach params)), label "Return" (lines result)]
  | .empty => braces "(texp.EmptyTuple)" []
  | .tuple elems => braces "(texp.NonEmptyTuple)" [label "Elems" (sequence (linesEach elems))]
  | .union parts => braces "(texp.Union)" [label "Components" (sequence (linesEach parts))]
  | .inter parts => braces "(texp.Inter)" [label "Components" (sequence (linesEach parts))]
  | .pred inner => braces "(texp.Pred)" [label "Inner" (lines inner)]

def linesEach : List Ty → List (List String)
  | [] => []
  | t :: ts => lines t :: linesEach ts

end

end Dump

def Ty.dump (t : Ty) : String :=
  String.join ((Dump.lines t).map (· ++ "\n"))

end TypeAlgebra
