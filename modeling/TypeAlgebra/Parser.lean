import TypeAlgebra.Context
import TypeAlgebra.Text.Letter
import TypeAlgebra.Tree.Reader
import TypeAlgebra.Ty.Clause

namespace TypeAlgebra

namespace Parser

def reserved : List String :=
  ["->", "*", "union", "inter", "is?"]

def startsName (name : String) : Bool :=
  match name.toList with
  | [] => false
  | c :: _ => c = '_' || Text.isLetter c

/-- The variable called `name` of the parse that began at `start`. -/
def parseVar (start : Nat) (name : String) : Step Ty := do
  match (← get).cells.findFrom? start name with
  | some v => return .var v
  | none => return .var (← Step.newVar name)

def parseAtom (start : Nat) (name : String) : Step Ty :=
  match Kind.ofKeyword? name with
  | some kind => pure (.atomic kind)
  | none =>
    if name = "Empty" then pure .empty
    else if name ∈ reserved then Step.fail (.unexpectedToken name "reserved token")
    else if startsName name then parseVar start name
    else Step.fail (.unexpectedToken name "type variable names start with a letter")

/-- Refuses a tuple, written as `tree`, where a single type has to stand. -/
def single (tree : Tree) (t : Ty) : Step Ty :=
  if t.isTuple then Step.fail (.nestedTuple tree.print) else pure t

mutual

def parseTree (start : Nat) : Tree → Step Ty
  | .atom name => parseAtom start name
  | .literal text =>
    Step.fail (.unexpectedToken (Text.quoted text) "literals are not type expressions")
  | .group items =>
    match _ : Clause.ofItems items with
    | .error problem => Step.fail problem
    | .ok (.union parts) => do
      Step.join (← parseEach start parts)
    | .ok (.inter parts) => do Step.meet (← parseEach start parts)
    | .ok (.pred inner) => do return .pred (← parseTree start inner)
    | .ok (.proc params result) => do
      let params ← parseParams start params
      let result ← single result (← parseTree start result)
      return .proc params result
termination_by tree => 2 * tree.size
decreasing_by
  all_goals
    have := Clause.weight_ofItems ‹_›
    simp only [Clause.weight, Tree.size] at *
    omega

def parseEach (start : Nat) : List Tree → Step (List Ty)
  | [] => pure []
  | tree :: trees => do
    let t ← parseTree start tree
    let ts ← parseEach start trees
    return t :: ts
termination_by trees => 2 * Tree.sizeEach trees + 1
decreasing_by
  all_goals
    have := tree.size_pos
    simp only [Tree.sizeEach]
    omega

def parseParams (start : Nat) : List Tree → Step (List Ty)
  | [] => pure []
  | tree :: trees => do
    let t ← single tree (← parseTree start tree)
    let ts ← parseParams start trees
    return t :: ts
termination_by trees => 2 * Tree.sizeEach trees + 1
decreasing_by
  all_goals
    have := tree.size_pos
    simp only [Tree.sizeEach]
    omega

end

def parseText (start : Nat) (text : String) : Step Ty :=
  match Tree.read text with
  | .ok tree => parseTree start tree
  | .error problem => Step.fail problem

end Parser

namespace Step

def parse (text : String) : Step Ty := do
  Parser.parseText (← get).cells.length text

def parseTree (tree : Tree) : Step Ty := do
  Parser.parseTree (← get).cells.length tree

/-- Parses texts that share their variables, up to the first that fails. -/
def parseAll (texts : List String) : Step (List Ty) := do
  let start := (← get).cells.length
  texts.mapM (Parser.parseText start)

def parsePair (left right : String) : Step (Ty × Ty) := do
  let start := (← get).cells.length
  let s ← Parser.parseText start left
  let t ← Parser.parseText start right
  return (s, t)

end Step

end TypeAlgebra
