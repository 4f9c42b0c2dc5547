import TypeAlgebra.Command.Literal
import TypeAlgebra.Text.Cut
import TypeAlgebra.Text.Quoted

namespace TypeAlgebra

inductive Verb where
  | parse
  | subtype
  | equiv
  | diff
  | union
  | inter
  | check
  | repl
  /-- Commands that only tell about the others. -/
  | help
  deriving DecidableEq

inductive Flag where
  | logLevel
  | limit
  | dump
  | help
  deriving DecidableEq

structure Settings where
  logLevel : Int64 := 8
  limit : Int64 := 0
  dump : Bool := false
  help : Bool := false

inductive UsageError where
  | badFlag (word : String)
  | unknownFlag (name : String)
  | unknownShort (letter : Char) (word : String)
  | noValue (word : String)
  | noShortValue (letter : Char) (word : String)
  | badValue (flag : Flag) (value : String) (flaw : LiteralFlaw)
  | noArguments
  | wrongCount (expected got : Nat)
  | strayArgument (argument : String)

namespace Flag

def name : Flag → String
  | logLevel => "log-level"
  | limit => "dnf-limit"
  | dump => "dump"
  | help => "help"

def letter? : Flag → Option Char
  | logLevel => some 'l'
  | help => some 'h'
  | _ => none

/-- Whether the flag can stand without a value, which is then true. -/
def isSwitch : Flag → Bool
  | dump => true
  | help => true
  | _ => false

def set (flag : Flag) (value : String) (settings : Settings) : Except UsageError Settings :=
  let outcome : Except LiteralFlaw Settings := do
    match flag with
    | logLevel => return { settings with logLevel := ← Literal.integer value }
    | limit => return { settings with limit := ← Literal.integer value }
    | dump => return { settings with dump := ← Literal.boolean value }
    | help => return { settings with help := ← Literal.boolean value }
  outcome.mapError (.badValue flag value)

end Flag

def UsageError.message : UsageError → String
  | badFlag word => "bad flag syntax: " ++ word
  | unknownFlag name => "unknown flag: --" ++ name
  | unknownShort letter word =>
    "unknown shorthand flag: " ++ Text.quotedChar letter ++ " in -" ++ word
  | noValue word => "flag needs an argument: " ++ word
  | noShortValue letter word =>
    "flag needs an argument: " ++ Text.quotedChar letter ++ " in -" ++ word
  | badValue flag value flaw =>
    let written := match flag.letter? with
      | some letter => "-" ++ letter.toString ++ ", --" ++ flag.name
      | none => "--" ++ flag.name
    let reader := if flag.isSwitch then "strconv.ParseBool" else "strconv.ParseInt"
    "invalid argument " ++ Text.quoted value ++ " for " ++ Text.quoted written ++ " flag: " ++
      reader ++ ": parsing " ++ Text.quoted value ++ ": " ++ flaw.message
  | noArguments => "requires at least 1 arg(s), only received 0"
  | wrongCount expected got =>
    "accepts " ++ toString expected ++ " arg(s), received " ++ toString got
  | strayArgument argument => "unknown command " ++ Text.quoted argument ++ " for \"texp repl\""

namespace Verb

def ofName? : String → Option Verb
  | "parse" => some parse
  | "subtype" => some subtype
  | "equiv" => some equiv
  | "diff" => some diff
  | "union" => some union
  | "inter" => some inter
  | "check" => some check
  | "repl" => some repl
  | "help" => some help
  | "completion" => some help
  | _ => none

def flags : Verb → List Flag
  | parse => [.logLevel, .limit, .dump, .help]
  | help => [.help]
  | _ => [.logLevel, .limit, .help]

def accepts (verb : Verb) (arguments : List String) : Except UsageError Unit :=
  match verb, arguments with
  | parse, [] => .error .noArguments
  | union, [] => .error .noArguments
  | inter, [] => .error .noArguments
  | subtype, _ => exactly 2
  | equiv, _ => exactly 2
  | diff, _ => exactly 2
  | check, _ => exactly 1
  | repl, argument :: _ => .error (.strayArgument argument)
  | _, _ => .ok ()
where
  exactly (expected : Nat) : Except UsageError Unit :=
    if arguments.length = expected then .ok () else .error (.wrongCount expected arguments.length)

end Verb

namespace Options

/-- Whether a word is taken for a flag whose value is the next word, as long as the command is not known. -/
def takesNext (word : List Char) : Bool :=
  match word with
  | '-' :: '-' :: rest => '=' ∉ rest
  | ['-', c] => c ≠ '=' && c.toNat < 0x80
  | _ => false

/-- The first word that can be the command's name, and the other words. -/
def splitCommand? : List String → Option (String × List String)
  | [] => none
  | word :: rest =>
    if word = "--" then none
    else if takesNext word.toList then
      match rest with
      | value :: next :: rest =>
        (splitCommand? (next :: rest)).map fun (name, others) ↦ (name, word :: value :: others)
      | _ => none
    else if word.isEmpty ∨ word.toList.head? = some '-' then
      (splitCommand? rest).map fun (name, others) ↦ (name, word :: others)
    else some (word, rest)

/-- The value of the first byte of a character's encoding. -/
def leadByte (c : Char) : Char :=
  if c.toNat < 0x80 then c
  else if c.toNat < 0x800 then .ofNat (0xc0 + c.toNat / 0x40)
  else if c.toNat < 0x10000 then .ofNat (0xe0 + c.toNat / 0x1000)
  else .ofNat (0xf0 + c.toNat / 0x40000)

/--
Reads a word of letters; says whether the word after it, `next?`, is used as a value. Words that start
with `test.` are meant for a test runner and passed over.
-/
def letters (flags : List Flag) (next? : Option String) (settings : Settings) :
    List Char → Except UsageError (Settings × Bool)
  | [] => .ok (settings, false)
  | c :: cs =>
    if "test.".toList.isPrefixOf (c :: cs) then .ok (settings, false)
    else match flags.find? (·.letter? = some c) with
    | none => .error (.unknownShort (leadByte c) (.ofList (c :: cs)))
    | some flag =>
      match cs with
      | '=' :: d :: ds => (flag.set (.ofList (d :: ds)) settings).map (·, false)
      | cs =>
        if flag.isSwitch then
          match flag.set "true" settings with
          | .ok settings => letters flags next? settings cs
          | .error e => .error e
        else if cs ≠ [] then (flag.set (.ofList cs) settings).map (·, false)
        else match next? with
          | some value => (flag.set value settings).map (·, true)
          | none => .error (.noShortValue c (.ofList [c]))

def splitLong (word : String) : String × Option String :=
  match Text.cut? "=" word with
  | some (name, value) => (name, some value)
  | none => (word, none)

def long (flags : List Flag) (next? : Option String) (settings : Settings) (word : String) :
    Except UsageError (Settings × Bool) :=
  if word.toList.head? = some '-' ∨ word.toList.head? = some '=' then .error (.badFlag ("--" ++ word))
  else match flags.find? (·.name = (splitLong word).1), (splitLong word).2 with
    | none, _ => .error (.unknownFlag (splitLong word).1)
    | some flag, some value => (flag.set value settings).map (·, false)
    | some flag, none =>
      if flag.isSwitch then (flag.set "true" settings).map (·, false)
      else match next? with
        | some value => (flag.set value settings).map (·, true)
        | none => .error (.noValue ("--" ++ word))

def flagWord? (flags : List Flag) (next? : Option String) (settings : Settings) (word : String) :
    Option (Except UsageError (Settings × Bool)) :=
  match word.toList with
  | '-' :: '-' :: cs => some (long flags next? settings (.ofList cs))
  | '-' :: c :: cs => some (letters flags next? settings (c :: cs))
  | _ => none

/-- Flags may stand anywhere before the word `--`, and the last one given counts. -/
def read (flags : List Flag) (settings : Settings) (arguments : List String) :
    List String → Except UsageError (Settings × List String)
  | [] => .ok (settings, arguments)
  | word :: rest =>
    if word = "--" then .ok (settings, arguments ++ rest)
    else match flagWord? flags rest.head? settings word, rest with
      | none, rest => read flags settings (arguments ++ [word]) rest
      | some (.error e), _ => .error e
      | some (.ok (settings, true)), _ :: rest => read flags settings arguments rest
      | some (.ok (settings, _)), rest => read flags settings arguments rest

end Options

end TypeAlgebra
