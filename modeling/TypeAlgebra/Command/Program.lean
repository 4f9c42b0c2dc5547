import TypeAlgebra.Command.Check
import TypeAlgebra.Command.Converse
import TypeAlgebra.Command.Dump
import TypeAlgebra.Command.Options
import TypeAlgebra.Disk

namespace TypeAlgebra

inductive Job where
  | help
  | parse (dump : Bool) (limit : Int64) (texts : List String)
  | relate (operator : Operator) (limit : Int64) (left right : String)
  | combine (make : List Ty → Step Ty) (limit : Int64) (texts : List String)
  | check (limit : Int64) (file : String)
  | converse (limit : Int64)

structure Outcome where
  status : Nat := 0
  out : String := ""
  err : String := ""

namespace Job

def ofVerb (verb : Verb) (settings : Settings) (arguments : List String) : Job :=
  match verb, arguments with
  | .parse, texts => parse settings.dump settings.limit texts
  | .subtype, [left, right] => relate .subtype settings.limit left right
  | .equiv, [left, right] => relate .equivalence settings.limit left right
  | .diff, [left, right] => relate .difference settings.limit left right
  | .union, texts => combine Step.join settings.limit texts
  | .inter, texts => combine Step.meet settings.limit texts
  | .check, [file] => check settings.limit file
  | .repl, _ => converse settings.limit
  | _, _ => help

/-- Wrong flags are found before a wrong number of arguments. -/
def ofWords (words : List String) : Except UsageError Job := do
  let (verb, words) :=
    match Options.splitCommand? words with
    | some (name, others) =>
      match Verb.ofName? name with
      | some verb => (verb, others)
      | none => (.help, words)
    | none => (.help, words)
  let (settings, arguments) ← Options.read verb.flags {} [] words
  if settings.help then
    return help
  verb.accepts arguments
  return ofVerb verb settings arguments

end Job

namespace Outcome

def failed (message : String) : Outcome :=
  { status := 1, err := "Error: " ++ message ++ "\n" }

/-- The text of each type on a line of its own, after its structure if that is asked for. -/
def parsed (dump : Bool) (texts : List String) : Step String := do
  let ts ← Step.parseAll texts
  let lines ← ts.mapM fun t ↦ do
    return (if dump then t.dump else "") ++ (← Step.unparse t) ++ "\n"
  return String.join lines

def ofStep (limit : Int64) (step : Step String) : Except Fault Outcome :=
  match step.run.run { limit } with
  | (.ok out, _) => .ok { out }
  | (.error (.problem problem), _) => .ok (failed problem.message)
  | (.error (.fault fault), _) => .error fault

def ofCheck (limit : Int64) (file : String) (content : Except ReadFailure String) :
    Except Fault Outcome := do
  match content with
  | .error failure => return failed ("could not read " ++ file ++ ": " ++ failure.message file)
  | .ok content =>
    let report ← checkLines limit content
    if report.problems.isEmpty then
      return { out := report.out, err := report.err }
    else
      let summary :=
        toString report.problems.length ++ " type expressions in " ++ file ++ " failed"
      return { failed summary with out := report.out, err := report.err ++ (failed summary).err }

def ofTranscript (transcript : Converse.Transcript) : Outcome :=
  match transcript.failure with
  | none => { out := transcript.out, err := transcript.err }
  | some message =>
    { failed message with out := transcript.out, err := transcript.err ++ (failed message).err }

/-- Does a job with the files of a disk, and with a script in place of what is typed. -/
def ofJob (disk : Disk) (script : List Converse.Input) : Job → Except Fault Outcome
  | .help => .ok {}
  | .parse dump limit texts => ofStep limit (parsed dump texts)
  | .relate operator limit left right =>
    ofStep limit (do return (← operator.applyTexts left right) ++ "\n")
  | .combine make limit texts =>
    ofStep limit (do return (← Step.unparse (← make (← Step.parseAll texts))) ++ "\n")
  | .check limit file => ofCheck limit file (disk.read file)
  | .converse limit => do return ofTranscript (← converse limit script)

def ofWords (disk : Disk) (script : List Converse.Input) (words : List String) :
    Except Fault Outcome :=
  match Job.ofWords words with
  | .ok job => ofJob disk script job
  | .error e => .ok (failed e.message)

end Outcome

end TypeAlgebra
