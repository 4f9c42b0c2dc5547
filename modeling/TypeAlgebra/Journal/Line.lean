import TypeAlgebra.Run
import TypeAlgebra.Text.Blank

namespace TypeAlgebra.Journal

/-- From this level on a record is a warning. -/
def warnLevel : Int :=
  4

/-- The name of the highest named level that is not above `level`, and the distance from it. -/
def levelText (level : Int) : String :=
  let (name, base) : String × Int :=
    if level < 0 then ("DEBUG", -4)
    else if level < 4 then ("INFO", 0)
    else if level < 8 then ("WARN", 4)
    else ("ERROR", 8)
  if level = base then name
  else if level < base then name ++ toString (level - base)
  else name ++ "+" ++ toString (level - base)

def needsQuotes (text : String) : Bool :=
  text.isEmpty || text.toList.any fun c ↦
    if c.toNat < 0x80 then c.toNat ≤ 0x20 || c = '=' || c = '"'
    else c.toNat = 0xfffd || Text.isBlank c || !Text.isPrintable c

def plain (text : String) : String :=
  if needsQuotes text then Text.quoted text else text

/-- A field of a line; `path` names the groups it belongs to, each followed by a dot. -/
structure Field where
  path : String := ""
  key : String
  value : String

def Field.text (field : Field) : String :=
  let name :=
    if field.path.isEmpty then plain field.key
    else if needsQuotes field.path || needsQuotes field.key then Text.quoted (field.path ++ field.key)
    else field.path ++ field.key
  name ++ "=" ++ plain field.value

/-- A line of the log, in which the time is never written. -/
def line (level : Int) (message : String) (fields : List Field) : String :=
  let head := ["level=" ++ levelText level, "msg=" ++ plain message]
  " ".intercalate (head ++ (fields.filter (·.key ≠ "time")).map Field.text)

end TypeAlgebra.Journal

namespace TypeAlgebra

def Warning.line : Warning → String
  | undistributed t limit =>
    Journal.line Journal.warnLevel "not distributing intersection: too many alternatives"
      [⟨"", "section", "texp.normalForms"⟩, ⟨"", "inter", t.text⟩, ⟨"", "limit", toString limit.toInt⟩]

end TypeAlgebra
