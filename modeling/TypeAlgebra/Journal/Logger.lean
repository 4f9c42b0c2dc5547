import TypeAlgebra.Journal.Line

namespace TypeAlgebra.Journal

/-- What the log knows about a value of a type of its own. -/
structure Object where
  printed : String
  /-- The text that the value gives for itself, if it can. The value may be printed in another way. -/
  own? : Option String := none
  isFailure : Bool := false

inductive Value where
  | text (s : String)
  | number (n : Int)
  | object (o : Object)
  /-- A value that is asked for what to write only when a line is written. -/
  | deferred (printed given : String)

namespace Value

def failure (message : String) : Value :=
  object { printed := message, isFailure := true }

def list (items : List String) : Value :=
  object { printed := "[" ++ " ".intercalate items ++ "]" }

/-- A value that is printed as it gives itself. -/
def shown (own : String) : Value :=
  object { printed := own, own? := some own }

def lazy (own : String) : Value :=
  deferred own own

def printed : Value → String
  | text s => s
  | number n => toString n
  | object o => o.printed
  | deferred printed _ => printed

def written : Value → String
  | deferred _ given => given
  | value => value.printed

/-- Puts off the text of a value that gives one for itself, unless it is a failure. -/
def defer : Value → Value
  | object o =>
    if o.isFailure then object o
    else
      match o.own? with
      | some own => lazy own
      | none => object o
  | value => value

end Value

structure Entry where
  key : String
  value : Value

def Entry.defer (entry : Entry) : Entry :=
  { entry with value := entry.value.defer }

structure Record where
  level : Int
  message : String
  entries : List Entry

def enabledSections : List String :=
  ["texp", "cli"]

def sectionEnabled (name : String) : Bool :=
  enabledSections.any fun enabled ↦ enabled.toList.isPrefixOf name.toList

def isEnabled (minimum level : Int) : Bool :=
  minimum ≤ level

/-- What records are handed to. A record is answered by the text that it adds to the log. -/
class Handler (η : Type) where
  enabled : η → (level : Int) → Bool
  handle : η → Record → String
  withEntries : η → List Entry → η
  withGroup : η → (name : String) → η

structure Sink where
  minimum : Int
  path : String := ""
  fields : List Field := []

def Sink.fieldsOf (sink : Sink) (entries : List Entry) : List Field :=
  entries.map fun entry ↦ ⟨sink.path, entry.key, entry.value.written⟩

instance : Handler Sink where
  enabled sink level := isEnabled sink.minimum level
  handle sink record := line record.level record.message (sink.fields ++ sink.fieldsOf record.entries) ++ "\n"
  withEntries sink entries := { sink with fields := sink.fields ++ sink.fieldsOf entries }
  withGroup sink name := { sink with path := sink.path ++ name ++ "." }

variable {η : Type}

/-- Hands on warnings, and of the other records those of an enabled section. -/
structure Filter (η : Type) where
  underlying : η
  /-- The sections of the entries that the filter has been derived with. -/
  sections : List String := []

namespace Filter

/-- Looks for an enabled section up to the first one; `wanted` tells what the last entry was found to be. -/
def scan (wanted : Bool) : List Entry → Bool
  | [] => wanted
  | entry :: entries =>
    let wanted := entry.key = "section" && sectionEnabled entry.value.printed
    if !wanted then scan wanted entries else wanted

def collect (sections : List String) : List Entry → List String
  | [] => sections
  | entry :: entries =>
    if entry.key = "section" then collect (sections ++ [entry.value.printed]) entries
    else collect sections entries

def wants (filter : Filter η) (entries : List Entry) : Bool :=
  let wanted := filter.sections.any sectionEnabled
  if !wanted then scan wanted entries else wanted

end Filter

instance [Handler η] : Handler (Filter η) where
  enabled filter level := Handler.enabled filter.underlying level
  handle filter record :=
    if isEnabled warnLevel record.level then Handler.handle filter.underlying record
    else if !filter.wants record.entries then ""
    else Handler.handle filter.underlying record
  withEntries filter entries :=
    { underlying := Handler.withEntries filter.underlying entries
      sections := Filter.collect filter.sections entries }
  withGroup filter name := { filter with underlying := Handler.withGroup filter.underlying name }

/-- Puts off the texts of all values before it hands them on. -/
structure Deferring (η : Type) where
  underlying : η

instance [Handler η] : Handler (Deferring η) where
  enabled deferring level := Handler.enabled deferring.underlying level
  handle deferring record :=
    Handler.handle deferring.underlying { record with entries := record.entries.map Entry.defer }
  withEntries deferring entries := ⟨Handler.withEntries deferring.underlying (entries.map Entry.defer)⟩
  withGroup deferring name := ⟨Handler.withGroup deferring.underlying name⟩

inductive Derivation where
  | group (name : String)
  | entries (entries : List Entry)

variable [Handler η]

/-- A logger derived from another one. An unnamed group and no entries at all change nothing. -/
def derive (handler : η) : Derivation → η
  | .group name => if name.isEmpty then handler else Handler.withGroup handler name
  | .entries [] => handler
  | .entries given => Handler.withEntries handler given

def log (handler : η) (record : Record) : String :=
  if Handler.enabled handler record.level then Handler.handle handler record else ""

def logger (minimum : Int) : Deferring (Filter Sink) :=
  { underlying := { underlying := { minimum } } }

end TypeAlgebra.Journal
