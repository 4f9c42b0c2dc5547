import TypeAlgebra.Text.Printable

namespace TypeAlgebra.Text

def hexDigits : (width n : Nat) → List Char
  | 0, _ => []
  | width + 1, n => hexDigits width (n / 16) ++ [Nat.digitChar (n % 16)]

/-- The one-letter escapes, apart from the quote and the backslash. -/
def shortEscape? : Char → Option Char
  | '\x07' => some 'a'
  | '\x08' => some 'b'
  | '\x0c' => some 'f'
  | '\n' => some 'n'
  | '\r' => some 'r'
  | '\t' => some 't'
  | '\x0b' => some 'v'
  | _ => none

def escapeChar (quote c : Char) : List Char :=
  if c = quote ∨ c = '\\' then ['\\', c]
  else if isPrintable c then [c]
  else match shortEscape? c with
    | some letter => ['\\', letter]
    | none =>
      if c.toNat < 0x80 then '\\' :: 'x' :: hexDigits 2 c.toNat
      else if c.toNat < 0x10000 then '\\' :: 'u' :: hexDigits 4 c.toNat
      else '\\' :: 'U' :: hexDigits 8 c.toNat

def quotedChars (cs : List Char) : List Char :=
  '"' :: cs.flatMap (escapeChar '"') ++ ['"']

/--
Controls below `U+0080` are written in two hexadecimal digits, other characters that are not printable in four or eight.
-/
def quoted (text : String) : String :=
  .ofList (quotedChars text.toList)

def quotedChar (c : Char) : String :=
  .ofList ('\'' :: escapeChar '\'' c ++ ['\''])

end TypeAlgebra.Text
