import TypeAlgebra.Algebra.Env

namespace TypeAlgebra

def Ty.namesBy (names : Ty → Except Fault (List String)) : Ty → Except Fault (List String)
  | var v => pure [v.name]
  | proc params result => do return (← (params ++ [result]).mapM names).flatten
  | tuple elems => do return (← elems.mapM names).flatten
  | union parts => do return (← parts.mapM names).flatten
  | inter parts => do return (← parts.mapM names).flatten
  | pred inner => names inner
  | _ => pure []

namespace Env

def namesTo (env : Env) : (depth : Nat) → Ty → Except Fault (List String)
  | 0, _ => .error .unfounded
  | depth + 1, t => do Ty.namesBy (env.namesTo depth) (← env.deref t)

/-- The free variables of a type: each name once, in order. -/
def freeNames (env : Env) (t : Ty) : Except Fault (List String) := do
  return (← env.namesTo (env.depth [t]) t).eraseDups.mergeSort fun a b ↦ a ≤ b

end Env

end TypeAlgebra
