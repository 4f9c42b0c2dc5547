import TypeAlgebra.Algebra.Difference
import TypeAlgebra.Algebra.FreeNames
import TypeAlgebra.Algebra.Normal
import TypeAlgebra.Algebra.Renaming

namespace TypeAlgebra

structure Context where
  cells : Cells := []
  /-- The bound on distribution, as in `Env`. -/
  limit : Int64 := 0
  /-- What the names of fresh variables start with. -/
  stem : String := "T_"
  /-- How many fresh names have been given out, which are assumed to be fewer than `2 ^ 64`. -/
  issued : Nat := 0
  warnings : List Warning := []
  deriving DecidableEq

def Context.env (context : Context) : Env :=
  ⟨context.cells, context.limit⟩

/-- A step that fails keeps what it has done to its context. -/
abbrev Step := ExceptT Failure (StateM Context)

namespace Step

variable {α : Type}

def fail (problem : Problem) : Step α :=
  throw (.problem problem)

def ask (question : Env → Except Failure α) : Step α := do
  match question (← get).env with
  | .ok a => return a
  | .error failure => throw failure

def askCells (question : Cells → Except Fault α) : Step α :=
  ask fun env ↦ (question env.cells).mapError .fault

def ofRun (run : Env → Run α) : Step α := do
  let result := run (← get).env
  modify fun context ↦ { context with warnings := context.warnings ++ result.warnings }
  match result.outcome with
  | .ok a => return a
  | .error fault => throw (.fault fault)

/-- A new unbound variable; other variables may have the same name. -/
def newVar (name : String) : Step Var :=
  modifyGet fun context ↦
    let (v, cells) := context.cells.allocate name
    (v, { context with cells })

def freshVar : Step Var := do
  let context ← get
  set { context with issued := context.issued + 1 }
  newVar (context.stem ++ toString (context.issued + 1))

def bind (v : Var) (t : Ty) : Step Unit := do
  let cells ← askCells (·.bind v t)
  modify fun context ↦ { context with cells }

def isBound (v : Var) : Step Bool :=
  askCells (·.isBound v)

def contents (v : Var) : Step (Option Ty) :=
  askCells (·.contents v)

def deref (t : Ty) : Step Ty :=
  askCells (·.deref t)

def join (ts : List Ty) : Step Ty :=
  ofRun (·.join ts)

def meet (ts : List Ty) : Step Ty :=
  ofRun (·.meet ts)

def diff (s t : Ty) : Step Ty :=
  ofRun (·.diff s t)

def normalize (t : Ty) : Step Ty :=
  ofRun (·.normalize t)

def subtype (s t : Ty) : Step Bool :=
  ofRun (·.subtype s t)

def order (s t : Ty) : Step Ordering :=
  ofRun (·.order s t)

def equal (s t : Ty) : Step Bool :=
  ask fun env ↦ (env.equal s t).mapError .fault

def equivalent (s t : Ty) : Step Bool :=
  ask fun env ↦ (env.equivalent s t).mapError .fault

def freeNames (t : Ty) : Step (List String) :=
  ask fun env ↦ (env.freeNames t).mapError .fault

def unparse (t : Ty) : Step String :=
  ask (·.unparse t)

end Step

end TypeAlgebra
