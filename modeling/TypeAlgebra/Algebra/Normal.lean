import TypeAlgebra.Algebra.Canonical

namespace TypeAlgebra

namespace Env

mutual

/-- Rebuilds the unions and intersections inside a type from the innermost on. Variables are kept. -/
def normalize (env : Env) : Ty → Run Ty
  | .union parts => do env.join (← env.normalizeEach parts)
  | .inter parts => do env.meet (← env.normalizeEach parts)
  | .proc params result => do
    let params ← env.normalizeEach params
    let result ← env.normalize result
    return .proc params result
  | .tuple elems => do return .tuple (← env.normalizeEach elems)
  | .pred inner => do return .pred (← env.normalize inner)
  | .absent => pure .absent
  | .atomic kind => pure (.atomic kind)
  | .var v => pure (.var v)
  | .empty => pure .empty

def normalizeEach (env : Env) : List Ty → Run (List Ty)
  | [] => pure []
  | t :: ts => do
    let t ← env.normalize t
    let ts ← env.normalizeEach ts
    return t :: ts

end

end Env

end TypeAlgebra
