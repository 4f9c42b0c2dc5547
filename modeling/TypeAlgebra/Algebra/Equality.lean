import TypeAlgebra.Algebra.Env
import TypeAlgebra.Sequence.Pairs

namespace TypeAlgebra

/-- Whether two types are equal, where `equal` compares their components. -/
@[specialize]
def Ty.equalBy {m : Type → Type} [Monad m] (equal : Ty → Ty → m Bool) : Ty → Ty → m Bool
  | absent, absent => pure true
  | atomic j, atomic k => pure (j == k)
  | var v, var w => pure (v.name == w.name)
  | empty, empty => pure true
  | tuple elems, tuple elems' => allPairs equal elems elems'
  | proc params result, proc params' result' => do
    if ← allPairs equal params params' then equal result result' else pure false
  | union parts, union parts' => allPairs equal parts parts'
  | inter parts, inter parts' => allPairs equal parts parts'
  | pred inner, pred inner' => equal inner inner'
  | _, _ => pure false

namespace Env

def equalTo (env : Env) : (depth : Nat) → Ty → Ty → Except Fault Bool
  | 0, _, _ => .error .unfounded
  | depth + 1, s, t => do
    let s ← env.deref s
    let t ← env.deref t
    Ty.equalBy (env.equalTo depth) s t

def equal (env : Env) (s t : Ty) : Except Fault Bool :=
  env.equalTo (env.depth [s, t]) s t

end Env

end TypeAlgebra
