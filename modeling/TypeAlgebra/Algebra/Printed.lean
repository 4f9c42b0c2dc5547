import TypeAlgebra.Algebra.Env
import TypeAlgebra.Failure

namespace TypeAlgebra

def Ty.formBy (form : Ty → Except Failure (List Tree)) : Ty → Except Failure (List Tree)
  | absent => .error (.problem noValue)
  | atomic kind => pure [.atom kind.keyword]
  | var v => pure [.atom v.name]
  | proc params result => do
    let params ← params.mapM form
    let result ← form result
    return Form.proc params result
  | empty => pure (Form.tuple [])
  | tuple elems => do return Form.tuple (← elems.mapM form)
  | union parts => do return [Form.union (← parts.mapM form)]
  | inter parts => do return [Form.inter (← parts.mapM form)]
  | pred inner => do return [Form.pred (← form inner)]

namespace Env

def formTo (env : Env) : (depth : Nat) → Ty → Except Failure (List Tree)
  | 0, _ => .error (.fault .unfounded)
  | depth + 1, t => do Ty.formBy (env.formTo depth) (← env.deref t)

def unparse (env : Env) (t : Ty) : Except Failure String :=
  (env.formTo (env.depth [t]) t).map Tree.format

/-- The text by which types are ordered that the subtype relation does not order. -/
def sortKeyTo (env : Env) (depth : Nat) (t : Ty) : Except Fault String :=
  match env.formTo depth t with
  | .ok form => .ok (Tree.format form)
  | .error (.problem _) => .ok t.text
  | .error (.fault fault) => .error fault

end Env

end TypeAlgebra
