import TypeAlgebra.Command.Evaluate
import TypeAlgebra.Text.Blank

namespace TypeAlgebra

namespace Check

structure Report where
  out : String := ""
  err : String := ""
  problems : List Problem := []

def essence (line : String) : String :=
  Text.trim (Text.takeUntil ';' line).1

def Report.result (report : Report) (number : Nat) (text : String) : Report :=
  { report with out := report.out ++ toString number ++ ": " ++ text ++ "\n" }

def Report.problem (report : Report) (number : Nat) (problem : Problem) : Report :=
  { report with
    err := report.err ++ toString number ++ ": " ++ problem.formatted ++ "\n"
    problems := report.problems ++ [problem] }

def run (report : Report) (context : Context) (number : Nat) : List String → Except Fault Report
  | [] => .ok report
  | line :: rest =>
    if (essence line).isEmpty then run report context (number + 1) rest
    else match (Step.evaluate (essence line)).run.run context with
      | (.ok text, context) => run (report.result number text) context (number + 1) rest
      | (.error (.problem problem), context) =>
        run (report.problem number problem) context (number + 1) rest
      | (.error (.fault fault), _) => .error fault

end Check

/-- Evaluates the lines one by one in one context. A problem is reported and does not stop the check. -/
def checkLines (limit : Int64) (content : String) : Except Fault Check.Report :=
  Check.run {} { limit } 1 (Text.lines content)

end TypeAlgebra
