namespace TypeAlgebra.Text

def cutChars? (mark : List Char) : List Char → Option (List Char × List Char)
  | [] => if mark.isEmpty then some ([], []) else none
  | c :: cs =>
    if mark.isPrefixOf (c :: cs) then some ([], (c :: cs).drop mark.length)
    else (cutChars? mark cs).map fun (before, after) ↦ (c :: before, after)

def cut? (mark text : String) : Option (String × String) :=
  (cutChars? mark.toList text.toList).map fun (before, after) ↦ (.ofList before, .ofList after)

/-- The text before the first `mark` and the text after it; all of it and nothing without one. -/
def takeUntil (mark : Char) (text : String) : String × String :=
  (.ofList (text.toList.takeWhile (· ≠ mark)), .ofList ((text.toList.dropWhile (· ≠ mark)).drop 1))

/-- The parts between the marks: one more than there are marks. -/
def splitChars (mark : Char) : List Char → List (List Char)
  | [] => [[]]
  | c :: cs =>
    match splitChars mark cs with
    | [] => [[c]]
    | part :: parts => if c = mark then [] :: part :: parts else (c :: part) :: parts

def split (mark : Char) (text : String) : List String :=
  (splitChars mark text.toList).map .ofList

def lines (text : String) : List String :=
  split '\n' text

end TypeAlgebra.Text
