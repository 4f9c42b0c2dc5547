import TypeAlgebra.Problem
import TypeAlgebra.Sequence.Stack
import TypeAlgebra.Tree.Basic
import TypeAlgebra.Tree.Token

namespace TypeAlgebra

inductive ReadFlaw where
  | trailing (tree : Tree)
  | unbalanced (bracket : Bracket)
  | mismatched (expected found : Bracket)
  | unclosed (bracket : Bracket)
  | unterminated
  | nothing

def ReadFlaw.message : ReadFlaw → String
  | trailing tree => "unexpected input after expression " ++ tree.print
  | unbalanced bracket => "unbalanced '" ++ bracket.closing.toString ++ "'"
  | mismatched expected found =>
    "expected '" ++ expected.closing.toString ++ "' but found '" ++ found.closing.toString ++ "'"
  | unclosed bracket => "missing '" ++ bracket.closing.toString ++ "'"
  | unterminated => "unterminated string literal"
  | nothing => "no expression found"

namespace Tree

/-- A group whose closing bracket has not been read yet. -/
structure OpenGroup where
  bracket : Bracket
  /-- Where its opening bracket stands. -/
  start : Nat
  items : List Tree := []

structure Reading where
  groups : Stack OpenGroup := {}
  trees : List Tree := []

namespace Reading

/-- Adds a finished tree to the innermost open group, or to the trees read. -/
def add (reading : Reading) (tree : Tree) : Reading :=
  match reading.groups.top? with
  | some _ =>
    { reading with
      groups := reading.groups.modifyTop fun innermost ↦
        { innermost with items := innermost.items ++ [tree] } }
  | none => { reading with trees := reading.trees ++ [tree] }

def close (reading : Reading) (bracket : Bracket) : Except ReadFlaw Reading :=
  match reading.groups.pop? with
  | none => .error (.unbalanced bracket)
  | some (innermost, groups) =>
    if innermost.bracket = bracket then
      .ok ({ reading with groups }.add (.group innermost.items))
    else .error (.mismatched innermost.bracket bracket)

/-- Takes one more token; `single` allows none after the first tree. -/
def step (single : Bool) (reading : Reading) (lexeme : Lexeme) : Except ReadFlaw Reading :=
  match single, reading.trees with
  | true, [tree] => .error (.trailing tree)
  | _, _ =>
    match lexeme.token with
    | .opening bracket =>
      .ok { reading with groups := reading.groups.push ⟨bracket, lexeme.offset, []⟩ }
    | .closing bracket => reading.close bracket
    | .literal text => .ok (reading.add (.literal text))
    | .atom text => .ok (reading.add (.atom text))
    | .unterminated => .error .unterminated

/-- Takes the rest of the tokens. A flaw is given with the index where it was found. -/
def run (single : Bool) (reading : Reading) : List Lexeme → Except (Nat × ReadFlaw) (List Tree)
  | [] =>
    match reading.groups.top? with
    | some innermost => .error (innermost.start, .unclosed innermost.bracket)
    | none => .ok reading.trees
  | lexeme :: rest =>
    match reading.step single lexeme with
    | .ok next => next.run single rest
    | .error flaw => .error (lexeme.offset, flaw)

end Reading

def unreadable (text : String) (offset : Nat) (flaw : ReadFlaw) : Problem :=
  .unreadable offset flaw.message text

def readAll (text : String) : Except Problem (List Tree) :=
  match Reading.run false {} (Token.scan 0 text.toList) with
  | .ok trees => .ok trees
  | .error (offset, flaw) => .error (unreadable text offset flaw)

def read (text : String) : Except Problem Tree :=
  match Reading.run true {} (Token.scan 0 text.toList) with
  | .ok (tree :: _) => .ok tree
  | .ok [] => .error (unreadable text 0 .nothing)
  | .error (offset, flaw) => .error (unreadable text offset flaw)

end Tree

end TypeAlgebra
