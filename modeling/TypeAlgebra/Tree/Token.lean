import TypeAlgebra.Text.Blank

namespace TypeAlgebra

inductive Bracket where
  | round
  | square
  deriving DecidableEq

def Bracket.opening : Bracket → Char
  | round => '('
  | square => '['

def Bracket.closing : Bracket → Char
  | round => ')'
  | square => ']'

inductive Token where
  | opening (bracket : Bracket)
  | closing (bracket : Bracket)
  | literal (text : String)
  | atom (text : String)
  /-- A string literal that the end of the text cuts off. -/
  | unterminated
  deriving DecidableEq

structure Lexeme where
  offset : Nat
  token : Token
  deriving DecidableEq

namespace Token

def isDelimiter (c : Char) : Bool :=
  c ∈ ['(', ')', '[', ']', '"', ';'] || Text.isBlank c

def unescape : Char → Char
  | 'n' => '\n'
  | 't' => '\t'
  | c => c

/-- The characters of a string literal whose opening quote has been read, and what follows it. -/
def literalBody? : List Char → Option (List Char × List Char)
  | [] => none
  | '"' :: rest => some ([], rest)
  | ['\\'] => none
  | '\\' :: c :: rest => (literalBody? rest).map fun (body, after) ↦ (unescape c :: body, after)
  | c :: rest => (literalBody? rest).map fun (body, after) ↦ (c :: body, after)

theorem length_literalBody? {cs body after : List Char} (h : literalBody? cs = some (body, after)) :
    after.length < cs.length := by
  fun_induction literalBody? cs generalizing body with
  | case1 => cases h
  | case2 rest => cases h; simp
  | case3 => cases h
  | case4 c rest ih =>
    obtain ⟨⟨b, a⟩, hb, he⟩ := Option.map_eq_some_iff.1 h
    cases he
    have := ih hb
    simp only [List.length_cons]
    omega
  | case5 c rest _ _ _ ih =>
    obtain ⟨⟨b, a⟩, hb, he⟩ := Option.map_eq_some_iff.1 h
    cases he
    have := ih hb
    simp only [List.length_cons]
    omega

theorem length_dropWhile_le {α : Type} (p : α → Bool) (as : List α) :
    (as.dropWhile p).length ≤ as.length :=
  (List.dropWhile_sublist p).length_le

/-- White space and comments, which run from a semicolon to the end of the line, only separate tokens. -/
def scan (offset : Nat) : List Char → List Lexeme
  | [] => []
  | c :: cs =>
    if Text.isBlank c then scan (offset + 1) cs
    else if c = ';' then
      scan (offset + 1 + (cs.takeWhile (· ≠ '\n')).length) (cs.dropWhile (· ≠ '\n'))
    else if c = '(' then ⟨offset, .opening .round⟩ :: scan (offset + 1) cs
    else if c = '[' then ⟨offset, .opening .square⟩ :: scan (offset + 1) cs
    else if c = ')' then ⟨offset, .closing .round⟩ :: scan (offset + 1) cs
    else if c = ']' then ⟨offset, .closing .square⟩ :: scan (offset + 1) cs
    else if c = '"' then
      match h : literalBody? cs with
      | none => [⟨offset, .unterminated⟩]
      | some (body, after) =>
        ⟨offset, .literal (.ofList body)⟩ :: scan (offset + 1 + (cs.length - after.length)) after
    else
      let word := cs.takeWhile (!isDelimiter ·)
      ⟨offset, .atom (.ofList (c :: word))⟩ ::
        scan (offset + 1 + word.length) (cs.dropWhile (!isDelimiter ·))
termination_by cs => cs.length
decreasing_by
  all_goals simp only [List.length_cons]
  all_goals
    first
    | omega
    | exact Nat.lt_succ_of_le (length_dropWhile_le ..)
    | exact Nat.lt_succ_of_lt (length_literalBody? h)

end Token

end TypeAlgebra
