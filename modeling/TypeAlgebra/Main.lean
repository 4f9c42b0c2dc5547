import TypeAlgebra.Command.Program

namespace TypeAlgebra

def prompt : String :=
  "texp> "

def present (outcome : Outcome) : IO UInt32 := do
  IO.print outcome.out
  IO.eprint outcome.err
  return outcome.status.toUInt32

def presentOrFail : Except Fault Outcome → IO UInt32
  | .ok outcome => present outcome
  | .error fault => throw (IO.userError fault.message)

partial def talk (input : IO.FS.Stream) (context : Context) : IO UInt32 := do
  IO.print prompt
  (← IO.getStdout).flush
  let text ← input.getLine
  if text.isEmpty then
    return 0
  match Converse.reply context text with
  | .error fault => throw (IO.userError fault.message)
  | .ok (.silence, context) => talk input context
  | .ok (.farewell, _) => return 0
  | .ok (.result text, context) =>
    IO.println text
    talk input context
  | .ok (.problem problem, context) =>
    IO.eprintln problem.formatted
    talk input context

/-- The failure that an error of the system stands for: 21 is the code of reading a folder, 22 the
code of a path that cannot be handed over. -/
def failureOf? : IO.Error → Option ReadFailure
  | .noFileOrDirectory .. => some .missing
  | .inappropriateType _ code _ => some (if code = 21 then .isFolder else .notFolder)
  | .invalidArgument _ code _ => some (if code = 22 then .unusablePath else .nameTooLong)
  | _ => none

def readText (file : String) : IO (Except ReadFailure String) := do
  try
    return .ok (← IO.FS.readFile file)
  catch e =>
    match failureOf? e with
    | some failure => return .error failure
    | none => throw e

def perform : Job → IO UInt32
  | .check limit file => do
    presentOrFail (Outcome.ofCheck limit file (← readText file))
  | .converse limit => do talk (← IO.getStdin) { limit }
  | job => presentOrFail (Outcome.ofJob (.ofFiles []) [] job)

end TypeAlgebra

def main (words : List String) : IO UInt32 :=
  match TypeAlgebra.Job.ofWords words with
  | .ok job => TypeAlgebra.perform job
  | .error e => TypeAlgebra.present (TypeAlgebra.Outcome.failed e.message)
