import TypeAlgebra.Command.Evaluate
import TypeAlgebra.Text.Blank

namespace TypeAlgebra

namespace Converse

inductive Input where
  | line (text : String)
  | interrupt
  | finished
  | broken (reason : String)

inductive Reply where
  | silence
  | farewell
  | result (text : String)
  | problem (problem : Problem)

def reply (context : Context) (text : String) : Except Fault (Reply × Context) :=
  match Text.trim text with
  | "" => .ok (.silence, context)
  | ":q" => .ok (.farewell, context)
  | line =>
    match (Step.evaluate line).run.run context with
    | (.ok text, context) => .ok (.result text, context)
    | (.error (.problem problem), context) => .ok (.problem problem, context)
    | (.error (.fault fault), _) => .error fault

def brokenMessage (reason : String) : String :=
  "could not read line: " ++ reason

structure Transcript where
  out : String := ""
  err : String := ""
  /-- Why the conversation broke off, if it did. -/
  failure : Option String := none

def run (transcript : Transcript) (context : Context) : List Input → Except Fault Transcript
  | [] => .ok transcript
  | .interrupt :: _ => .ok transcript
  | .finished :: _ => .ok transcript
  | .broken reason :: _ => .ok { transcript with failure := some (brokenMessage reason) }
  | .line text :: rest =>
    match reply context text with
    | .error fault => .error fault
    | .ok (.silence, context) => run transcript context rest
    | .ok (.farewell, _) => .ok transcript
    | .ok (.result text, context) =>
      run { transcript with out := transcript.out ++ text ++ "\n" } context rest
    | .ok (.problem problem, context) =>
      run { transcript with err := transcript.err ++ problem.formatted ++ "\n" } context rest

end Converse

/-- Answers the lines of a script, up to the word `:q`, an interrupt or the end of the input. -/
def converse (limit : Int64) (script : List Converse.Input) : Except Fault Converse.Transcript :=
  Converse.run {} { limit } script

end TypeAlgebra
