import TypeAlgebra.Algebra.Env

namespace TypeAlgebra

/-- The pairs of names found in matching two types; none if the types differ in shape. -/
abbrev Matching := OptionT (Except Fault) (List (String × String))

namespace Ty

def matchEach (pair : Ty → Ty → Matching) (ss ts : List Ty) : Matching := do
  if ss.length = ts.length then
    return (← (ss.zip ts).mapM fun (s, t) ↦ pair s t).flatten
  else failure

def matchBy (pair : Ty → Ty → Matching) : Ty → Ty → Matching
  | var v, var w => pure (if v.name = w.name then [] else [(v.name, w.name)])
  | atomic j, atomic k => if j = k then pure [] else failure
  | proc params result, proc params' result' =>
    if params.length = params'.length then
      matchEach pair (params ++ [result]) (params' ++ [result'])
    else failure
  | empty, empty => pure []
  | tuple elems, tuple elems' => matchEach pair elems elems'
  | union parts, union parts' => matchEach pair parts parts'
  | inter parts, inter parts' => matchEach pair parts parts'
  | pred inner, pred inner' => pair inner inner'
  | _, _ => failure

end Ty

namespace Env

def matchTo (env : Env) : (depth : Nat) → Ty → Ty → Matching
  | 0, _, _ => OptionT.lift (.error .unfounded)
  | depth + 1, s, t => do
    let s ← env.deref s
    let t ← env.deref t
    Ty.matchBy (env.matchTo depth) s t

def distinctCount (names : List String) : Nat :=
  names.eraseDups.length

/--
Equality up to the names of variables. The pairs of different names at the same places are collected, and as many names
have to occur on the left of these pairs as on the right.
-/
def equivalent (env : Env) (s t : Ty) : Except Fault Bool := do
  match ← (env.matchTo (env.depth [s, t]) s t).run with
  | some pairs => return distinctCount pairs.unzip.1 == distinctCount pairs.unzip.2
  | none => return false

end Env

end TypeAlgebra
