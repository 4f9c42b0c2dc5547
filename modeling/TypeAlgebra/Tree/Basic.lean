import TypeAlgebra.Text.Quoted

namespace TypeAlgebra

inductive Tree where
  | atom (text : String)
  /-- A string literal, without its quotes and escapes. -/
  | literal (text : String)
  | group (items : List Tree)
  deriving Inhabited

namespace Tree

def isAtom (name : String) : Tree → Bool
  | atom text => text == name
  | _ => false

mutual

def size : Tree → Nat
  | atom _ => 1
  | literal _ => 1
  | group items => 1 + sizeEach items

def sizeEach : List Tree → Nat
  | [] => 0
  | tree :: trees => tree.size + sizeEach trees

end

theorem size_pos (tree : Tree) : 0 < tree.size := by
  cases tree <;> simp only [size] <;> omega

theorem sizeEach_append (left right : List Tree) :
    sizeEach (left ++ right) = sizeEach left + sizeEach right := by
  induction left with
  | nil => simp [sizeEach]
  | cons tree trees ih => simp only [List.cons_append, sizeEach, ih]; omega

mutual

def print : Tree → String
  | atom text => text
  | literal text => Text.quoted text
  | group items => "(" ++ " ".intercalate (printEach items) ++ ")"

def printEach : List Tree → List String
  | [] => []
  | tree :: trees => tree.print :: printEach trees

end

/-- Several trees side by side, without brackets around them. -/
def format (trees : List Tree) : String :=
  " ".intercalate (printEach trees)

end Tree

end TypeAlgebra
