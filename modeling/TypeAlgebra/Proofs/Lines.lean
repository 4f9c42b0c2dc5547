import TypeAlgebra.Command.Check
import TypeAlgebra.Command.Converse
import TypeAlgebra.Proofs.Evaluation

namespace TypeAlgebra

namespace Step

variable {context : Context} {limit : Int64} {line : String} {answer : Except Problem String}

/-- What a line is answered if it is the only one in its context. -/
def Answers (limit : Int64) (line : String) (answer : Except Problem String) : Prop :=
  ((evaluate line).run { limit }).1 = answer.mapError .problem

theorem evaluate_alone (line : String) (context : Context) :
    ((evaluate line).run context).1 = ((evaluate line).run { limit := context.limit }).1 := by
  rw [(evaluate_eq_value line context).1, (evaluate_eq_value line { limit := context.limit }).1]

theorem exists_answer (limit : Int64) (line : String) : ∃ answer, Answers limit line answer := by
  obtain ⟨hvalue, hf⟩ := evaluate_eq_value line { limit }
  obtain ⟨answer, ha⟩ := hf.exists_eq
  exact ⟨answer, hvalue.trans ha⟩

/-- A line gets its answer in every context, and leaves the limit as it is. -/
theorem Answers.run (h : Answers context.limit line answer) :
    ∃ next : Context, next.limit = context.limit ∧
      (evaluate line).run context = (answer.mapError .problem, next) :=
  ⟨_, (evaluate_grows line context).limit, Prod.ext ((evaluate_alone line context).trans h) rfl⟩

end Step

namespace Check

structure Entry where
  number : Nat
  answer : Except Problem String

namespace Entry

def out (entry : Entry) : String :=
  match entry.answer with
  | .ok text => toString entry.number ++ ": " ++ text ++ "\n"
  | .error _ => ""

def err (entry : Entry) : String :=
  match entry.answer with
  | .ok _ => ""
  | .error problem => toString entry.number ++ ": " ++ problem.formatted ++ "\n"

def problems (entry : Entry) : List Problem :=
  match entry.answer with
  | .ok _ => []
  | .error problem => [problem]

structure Records (limit : Int64) (statement : String × Nat) (entry : Entry) : Prop where
  number : entry.number = statement.2
  answer : Step.Answers limit statement.1 entry.answer

end Entry

variable {context : Context}

/-- What is evaluated of some lines, the first of which has the given number. -/
def statements (number : Nat) (lines : List String) : List (String × Nat) :=
  ((lines.map essence).zipIdx number).filter (!·.1.isEmpty)

def Report.extend (report : Report) (entries : List Entry) : Report where
  out := report.out ++ String.join (entries.map Entry.out)
  err := report.err ++ String.join (entries.map Entry.err)
  problems := report.problems ++ entries.flatMap Entry.problems

theorem Report.extend_nil (report : Report) : report.extend [] = report := by
  simp [extend, String.join]

theorem Report.extend_result (report : Report) (number : Nat) (text : String) (entries : List Entry) :
    (report.result number text).extend entries = report.extend (⟨number, .ok text⟩ :: entries) := by
  simp [extend, result, Entry.out, Entry.err, Entry.problems, String.append_assoc]

theorem Report.extend_problem (report : Report) (number : Nat) (problem : Problem) (entries : List Entry) :
    (report.problem number problem).extend entries = report.extend (⟨number, .error problem⟩ :: entries) := by
  simp [extend, Report.problem, Entry.out, Entry.err, Entry.problems, String.append_assoc]

-- Otherwise, to unfold a check, Lean looks into the evaluation of its first line.
attribute [local irreducible] Step.evaluate

theorem run_cons (report : Report) (context : Context) (number : Nat) (line : String) (rest : List String) :
    run report context number (line :: rest) =
      if (essence line).isEmpty then run report context (number + 1) rest
      else match (Step.evaluate (essence line)).run.run context with
        | (.ok text, context) => run (report.result number text) context (number + 1) rest
        | (.error (.problem problem), context) =>
          run (report.problem number problem) context (number + 1) rest
        | (.error (.fault fault), _) => .error fault :=
  rfl

theorem run_of_isEmpty (report : Report) (number : Nat) {line : String} (h : (essence line).isEmpty = true)
    (rest : List String) :
    run report context number (line :: rest) = run report context (number + 1) rest := by
  rw [run_cons, if_pos h]

/-- A line adds one entry to the report, with the answer that it gets alone. -/
theorem run_of_answers (report : Report) (number : Nat) {line : String} {answer : Except Problem String}
    (h : (essence line).isEmpty = false) (ha : Step.Answers context.limit (essence line) answer)
    (rest : List String) :
    ∃ next : Context, next.limit = context.limit ∧
      run report context number (line :: rest) =
        run (report.extend [⟨number, answer⟩]) next (number + 1) rest := by
  obtain ⟨next, hl, hr⟩ := ha.run
  refine ⟨next, hl, ?_⟩
  have hr' : (Step.evaluate (essence line)).run.run context = (answer.mapError .problem, next) := hr
  rw [run_cons, if_neg (by rw [h]; exact Bool.false_ne_true), hr']
  cases answer with
  | ok text => rw [← Report.extend_result, Report.extend_nil]; rfl
  | error problem => rw [← Report.extend_problem, Report.extend_nil]; rfl

theorem extend_extend (report : Report) (entries more : List Entry) :
    (report.extend entries).extend more = report.extend (entries ++ more) := by
  simp [Report.extend, String.append_assoc]

theorem run_eq (report : Report) (context : Context) (number : Nat) (lines : List String) :
    ∃ entries, List.Forall₂ (Entry.Records context.limit) (statements number lines) entries ∧
      run report context number lines = .ok (report.extend entries) := by
  induction lines generalizing report context number with
  | nil => exact ⟨[], .nil, congrArg Except.ok report.extend_nil.symm⟩
  | cons line rest ih =>
    cases h : (essence line).isEmpty with
    | true =>
      obtain ⟨entries, hentries, hr⟩ := ih report context (number + 1)
      refine ⟨entries, ?_, (run_of_isEmpty report number h rest).trans hr⟩
      simpa [statements, h] using hentries
    | false =>
      obtain ⟨answer, ha⟩ := Step.exists_answer context.limit (essence line)
      obtain ⟨next, hl, hstep⟩ := run_of_answers report number h ha rest
      obtain ⟨entries, hentries, hr⟩ := ih (report.extend [⟨number, answer⟩]) next (number + 1)
      rw [hl] at hentries
      refine ⟨⟨number, answer⟩ :: entries, ?_, ?_⟩
      · simpa [statements, h] using ⟨⟨rfl, ha⟩, hentries⟩
      · rw [hstep, hr, extend_extend]
        rfl

end Check

namespace Converse

variable {context : Context} {text : String} {answer : Except Problem String}

def Input.typed : Input → String
  | line text => Text.trim text
  | _ => ""

def Input.continues : Input → Bool
  | line text => Text.trim text ≠ ":q"
  | _ => false

def questions (script : List Input) : List String :=
  ((script.takeWhile Input.continues).map Input.typed).filter (!·.isEmpty)

def breakdown (script : List Input) : Option String :=
  match script.dropWhile Input.continues with
  | .broken reason :: _ => some (brokenMessage reason)
  | _ => none

def Reply.ofAnswer : Except Problem String → Reply
  | .ok text => .result text
  | .error p => .problem p

def outOf : Except Problem String → String
  | .ok text => text ++ "\n"
  | .error _ => ""

def errOf : Except Problem String → String
  | .ok _ => ""
  | .error problem => problem.formatted ++ "\n"

def Transcript.extend (transcript : Transcript) (answers : List (Except Problem String)) : Transcript where
  out := transcript.out ++ String.join (answers.map outOf)
  err := transcript.err ++ String.join (answers.map errOf)
  failure := transcript.failure

theorem Transcript.extend_nil (transcript : Transcript) : transcript.extend [] = transcript := by
  simp [extend, String.join]

theorem Transcript.extend_cons (transcript : Transcript) (answer : Except Problem String)
    (answers : List (Except Problem String)) :
    (transcript.extend [answer]).extend answers = transcript.extend (answer :: answers) := by
  simp [extend, String.append_assoc]

theorem reply_of_isEmpty (h : Text.trim text = "") : reply context text = .ok (.silence, context) := by
  unfold reply
  simp only [h]

theorem reply_of_farewell (h : Text.trim text = ":q") : reply context text = .ok (.farewell, context) := by
  unfold reply
  simp only [h]

theorem reply_of_answers (he : Text.trim text ≠ "") (hq : Text.trim text ≠ ":q")
    (ha : Step.Answers context.limit (Text.trim text) answer) :
    ∃ next : Context, next.limit = context.limit ∧ reply context text = .ok (.ofAnswer answer, next) := by
  obtain ⟨next, hl, hr⟩ := ha.run
  have hr' : (Step.evaluate (Text.trim text)).run.run context = (answer.mapError .problem, next) := hr
  refine ⟨next, hl, ?_⟩
  unfold reply
  split
  · next h => exact absurd h he
  · next h => exact absurd h hq
  · rw [hr']
    cases answer <;> rfl

/-- A line adds its answer to the transcript, the one that it gets alone. -/
theorem run_of_answers (transcript : Transcript) (he : Text.trim text ≠ "") (hq : Text.trim text ≠ ":q")
    (ha : Step.Answers context.limit (Text.trim text) answer) (rest : List Input) :
    ∃ next : Context, next.limit = context.limit ∧
      run transcript context (.line text :: rest) = run (transcript.extend [answer]) next rest := by
  obtain ⟨next, hl, hr⟩ := reply_of_answers he hq ha
  refine ⟨next, hl, ?_⟩
  rw [run, hr]
  cases answer <;> simp [Reply.ofAnswer, Transcript.extend, outOf, errOf, String.append_assoc]

theorem questions_line (h : Text.trim text ≠ ":q") (rest : List Input) :
    questions (.line text :: rest) = [Text.trim text].filter (!·.isEmpty) ++ questions rest := by
  have hgoes : Input.continues (.line text) = true := by simpa [Input.continues] using h
  rw [questions, List.takeWhile_cons_of_pos hgoes, List.map_cons, ← List.singleton_append, List.filter_append]
  rfl

theorem breakdown_line (h : Text.trim text ≠ ":q") (rest : List Input) :
    breakdown (.line text :: rest) = breakdown rest := by
  simp [breakdown, Input.continues, h]

theorem run_eq (transcript : Transcript) (context : Context) (script : List Input)
    (hf : transcript.failure = none) :
    ∃ answers, List.Forall₂ (Step.Answers context.limit) (questions script) answers ∧
      run transcript context script =
        .ok { transcript.extend answers with failure := breakdown script } := by
  have ended {transcript : Transcript} (h : transcript.failure = none) :
      transcript = { transcript.extend [] with failure := none } := by
    rw [Transcript.extend_nil, ← h]
  induction script generalizing transcript context with
  | nil => exact ⟨[], .nil, congrArg Except.ok (ended hf)⟩
  | cons input rest ih =>
    cases input with
    | interrupt => exact ⟨[], .nil, congrArg Except.ok (ended hf)⟩
    | finished => exact ⟨[], .nil, congrArg Except.ok (ended hf)⟩
    | broken reason =>
      refine ⟨[], .nil, ?_⟩
      rw [Transcript.extend_nil]
      rfl
    | line text =>
      by_cases hq : Text.trim text = ":q"
      · have hstop : Input.continues (.line text) = false := by simp [Input.continues, hq]
        refine ⟨[], ?_, ?_⟩
        · rw [questions, List.takeWhile_cons_of_neg (by simp [hstop])]
          exact .nil
        · rw [run, reply_of_farewell hq, breakdown, List.dropWhile_cons_of_neg (by simp [hstop])]
          exact congrArg Except.ok (ended hf)
      · rw [questions_line hq, breakdown_line hq]
        by_cases he : Text.trim text = ""
        · rw [he, run, reply_of_isEmpty he]
          exact ih transcript context hf
        · obtain ⟨answer, ha⟩ := Step.exists_answer context.limit (Text.trim text)
          obtain ⟨next, hl, hstep⟩ := run_of_answers transcript he hq ha rest
          obtain ⟨answers, hanswers, hr⟩ := ih (transcript.extend [answer]) next hf
          rw [hl] at hanswers
          refine ⟨answer :: answers, ?_, ?_⟩
          · rw [List.filter_cons_of_pos (by simpa using he)]
            exact .cons ha hanswers
          · rw [hstep, hr, Transcript.extend_cons]

end Converse

/--
A line is answered in every context as it is in a new one with the same limit. So a report has, for each line of a
text in which there is something to evaluate, the answer that the line gets alone, in order and with the line's
number, and a transcript has the answers of the lines up to where the conversation ends.
-/
theorem lines_independent :
    (∀ line (context : Context),
      ((Step.evaluate line).run context).1 = ((Step.evaluate line).run { limit := context.limit }).1) ∧
    (∀ limit content, ∃ entries : List Check.Entry,
      List.Forall₂ (Check.Entry.Records limit) (Check.statements 1 (Text.lines content)) entries ∧
      checkLines limit content = .ok
        { out := String.join (entries.map Check.Entry.out)
          err := String.join (entries.map Check.Entry.err)
          problems := entries.flatMap Check.Entry.problems }) ∧
    ∀ limit script, ∃ answers : List (Except Problem String),
      List.Forall₂ (Step.Answers limit) (Converse.questions script) answers ∧
      converse limit script = .ok
        { out := String.join (answers.map Converse.outOf)
          err := String.join (answers.map Converse.errOf)
          failure := Converse.breakdown script } := by
  refine ⟨Step.evaluate_alone, fun limit content ↦ ?_, fun limit script ↦ ?_⟩
  · obtain ⟨entries, hentries, hr⟩ := Check.run_eq {} { limit } 1 (Text.lines content)
    refine ⟨entries, hentries, ?_⟩
    rw [checkLines, hr]
    simp [Check.Report.extend]
  · obtain ⟨answers, hanswers, hr⟩ := Converse.run_eq {} { limit } script rfl
    refine ⟨answers, hanswers, ?_⟩
    rw [converse, hr]
    simp [Converse.Transcript.extend]

end TypeAlgebra
