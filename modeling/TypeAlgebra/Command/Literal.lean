namespace TypeAlgebra

inductive LiteralFlaw where
  | malformed
  | outOfRange
  deriving DecidableEq

def LiteralFlaw.message : LiteralFlaw → String
  | malformed => "invalid syntax"
  | outOfRange => "value out of range"

namespace Literal

def splitBase : List Char → Nat × List Char
  | '0' :: mark :: c :: cs =>
    if mark = 'b' ∨ mark = 'B' then (2, c :: cs)
    else if mark = 'o' ∨ mark = 'O' then (8, c :: cs)
    else if mark = 'x' ∨ mark = 'X' then (16, c :: cs)
    else (8, mark :: c :: cs)
  | '0' :: cs => (8, cs)
  | cs => (10, cs)

def digit? (base : Nat) (c : Char) : Option Nat :=
  let value :=
    if c.isDigit then c.toNat - '0'.toNat
    else if c.isLower then c.toNat - 'a'.toNat + 10
    else if c.isUpper then c.toNat - 'A'.toNat + 10
    else base
  if value < base then some value else none

/-- The value of the digits after those that make `n`; underscores are passed over. -/
def digits (base n : Nat) : List Char → Except LiteralFlaw Nat
  | [] => .ok n
  | '_' :: cs => digits base n cs
  | c :: cs =>
    match digit? base c with
    | none => .error .malformed
    | some d => if n * base + d < UInt64.size then digits base (n * base + d) cs else .error .outOfRange

/-- Whether each underscore stands between two digits; `afterDigit` says if a digit came last. -/
def underscoresFit (hex afterDigit afterUnderscore : Bool) : List Char → Bool
  | [] => !afterUnderscore
  | c :: cs =>
    if c.isDigit || (hex && (digit? 16 c).isSome) then underscoresFit hex true false cs
    else if c = '_' then afterDigit && underscoresFit hex false true cs
    else !afterUnderscore && underscoresFit hex false false cs

/-- A base mark counts as a digit. -/
def wellSpaced : List Char → Bool
  | '0' :: mark :: cs =>
    if mark ∈ ['b', 'B', 'o', 'O', 'x', 'X'] then
      underscoresFit (mark = 'x' ∨ mark = 'X') true false cs
    else underscoresFit false false false ('0' :: mark :: cs)
  | cs => underscoresFit false false false cs

def natural (cs : List Char) : Except LiteralFlaw Nat :=
  if cs.isEmpty then .error .malformed
  else
    let (base, rest) := splitBase cs
    match digits base 0 rest with
    | .error flaw => .error flaw
    | .ok n => if '_' ∈ rest ∧ ¬ wellSpaced cs then .error .malformed else .ok n

def inRange (n : Int) : Except LiteralFlaw Int64 :=
  if Int64.minValue.toInt ≤ n ∧ n ≤ Int64.maxValue.toInt then .ok (.ofInt n)
  else .error .outOfRange

/--
An integer may have a sign, a base mark (`0b`, `0o`, `0x`, or a leading zero for octal) and underscores between its
digits, and fits 64 bits.
-/
def integer (text : String) : Except LiteralFlaw Int64 :=
  match text.toList with
  | '-' :: cs => do inRange (-((← natural cs) : Int))
  | '+' :: cs => do inRange (← natural cs)
  | cs => do inRange (← natural cs)

def boolean (text : String) : Except LiteralFlaw Bool :=
  if text ∈ ["1", "t", "T", "true", "TRUE", "True"] then .ok true
  else if text ∈ ["0", "f", "F", "false", "FALSE", "False"] then .ok false
  else .error .malformed

end Literal

end TypeAlgebra
