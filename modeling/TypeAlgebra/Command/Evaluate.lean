import TypeAlgebra.Parser
import TypeAlgebra.Text.Cut

namespace TypeAlgebra

inductive Operator where
  | subtype
  | equivalence
  | difference
  deriving DecidableEq

namespace Operator

def symbol : Operator → String
  | subtype => "<:"
  | equivalence => "~"
  | difference => "-"

/-- All operators, in the order in which a line is searched for them. -/
def all : List Operator :=
  [subtype, equivalence, difference]

def ofSymbol? (symbol : String) : Option Operator :=
  all.find? (·.symbol == symbol)

def apply : Operator → Ty → Ty → Step String
  | subtype, s, t => toString <$> Step.subtype s t
  | equivalence, s, t => toString <$> Step.equivalent s t
  | difference, s, t => do Step.unparse (← Step.diff s t)

def applyTexts (operator : Operator) (left right : String) : Step String := do
  let (s, t) ← Step.parsePair left right
  operator.apply s t

/-- Where a line has an operator between blanks, and what stands on its sides. -/
def split? (line : String) : Option (Operator × String × String) :=
  all.findSome? fun operator ↦ (Text.cut? (" " ++ operator.symbol ++ " ") line).map (operator, ·)

end Operator

namespace Step

def evaluate (line : String) : Step String := do
  match Operator.split? line with
  | some (operator, left, right) => operator.applyTexts left right
  | none => unparse (← parse line)

def applySymbol (symbol left right : String) : Step String :=
  match Operator.ofSymbol? symbol with
  | some operator => operator.applyTexts left right
  | none => throw (.fault (.unknownOperator symbol))

end Step

end TypeAlgebra
