namespace TypeAlgebra

inductive ArrowFlaw where
  | missing
  | noParams
  | noResult
  | several
  | unclear
  deriving DecidableEq

def ArrowFlaw.message : ArrowFlaw → String
  | .missing => "procedure type expression without '->'"
  | .noParams => "no parameter types before '->'"
  | .noResult => "no return type after '->'"
  | .several => "only one '->' is allowed in a procedure type, parenthesize nested procedures"
  | .unclear => "malformed procedure type"

inductive Problem where
  /-- `text` cannot be read as token trees. -/
  | unreadable (offset : Int) (reason text : String)
  | unexpectedToken (token hint : String)
  | arrow (flaw : ArrowFlaw) (form : String)
  /-- The element at `position` of a parameter list, none if `found` is empty, breaks the alternation. -/
  | separator (position : Int) (found params : String)
  | nestedTuple (form : String)
  | predicateArity (got : Int) (form : String)
  | emptyForm (form : String)
  | unprintable (reason : String)
  deriving DecidableEq

namespace Problem

def code : Problem → Nat
  | unreadable .. => 1
  | unexpectedToken .. => 2
  | arrow .. => 3
  | separator .. => 4
  | nestedTuple .. => 5
  | predicateArity .. => 6
  | emptyForm .. => 7
  | unprintable .. => 8

def message : Problem → String
  | unreadable offset reason _ => "syntax error at offset " ++ toString offset ++ ": " ++ reason
  | unexpectedToken token hint =>
    "unexpected type expression '" ++ token ++ "'" ++ (if hint.isEmpty then "" else ": " ++ hint)
  | arrow flaw form => flaw.message ++ ": " ++ form
  | separator position found params =>
    "parameters of procedure type must be separated by '*': " ++
      (if found.isEmpty then "expected a type" else "found '" ++ found ++ "'") ++
      " at position " ++ toString position ++ " in '" ++ params ++ "'"
  | nestedTuple form => "tuple types cannot be nested or used outside a parameter list: " ++ form
  | predicateArity got form =>
    "predicate type expects exactly one type, got " ++ toString got ++ ": " ++ form
  | emptyForm form => "empty type expression: " ++ form
  | unprintable reason => "cannot unparse type expression: " ++ reason

def fragment : Problem → String
  | unreadable _ _ text => text
  | unexpectedToken token _ => token
  | arrow _ form => form
  | separator _ _ params => params
  | nestedTuple form => form
  | predicateArity _ form => form
  | emptyForm form => form
  | unprintable _ => ""

/-- The message after the code in three digits. -/
def formatted (problem : Problem) : String :=
  "(E00" ++ toString problem.code ++ ") " ++ problem.message

end Problem

end TypeAlgebra
