import TypeAlgebra.Algebra.Canonical

namespace TypeAlgebra

namespace Env

def unrelated (env : Env) : List Ty → Run Bool
  | [] => pure true
  | s :: rest => do
    let related ← rest.anyM fun t ↦ do
      if ← env.subtype s t then return true else env.subtype t s
    if related then return false else env.unrelated rest

/-- Whether `t` is an intersection of unrelated parts, none of them `never`. -/
def isUnrelatedInter (env : Env) : Ty → Run Bool
  | .inter parts => if parts.any Ty.isNever then pure false else env.unrelated parts
  | _ => pure false

def withoutSubtypes (env : Env) (t : Ty) (parts : List Ty) : Run (List Ty) :=
  parts.filterM fun part ↦ do return !(← env.subtype part t)

def diffTo (env : Env) : (depth : Nat) → Ty → Ty → Run Ty
  | 0, _, _ => Run.fail .unfounded
  | depth + 1, s, t => do
    let s ← env.deref s
    let t ← env.deref t
    if ← env.equal s t then return .never
    else if s.isAny then return .any
    else if t.isNever then return s
    else if ← env.isUnrelatedInter t then return s
    else match s, t with
      | .union parts, t => do env.join (← env.withoutSubtypes t parts)
      | .inter parts, t => do env.meet (← env.withoutSubtypes t parts)
      | s, .union parts => do env.meet [s, ← env.diffTo depth (.union parts) s]
      | s, .inter parts => do env.join (← parts.mapM fun part ↦ env.diffTo depth s part)
      | s, t => if ← env.subtype s t then return .never else return s

/--
The part of `s` that lies outside `t`. From a union or an intersection it takes the parts that are subtypes of `t`; an
intersection of unrelated parts is not subtracted at all.
-/
def diff (env : Env) (s t : Ty) : Run Ty :=
  env.diffTo (env.depth [s, t]) s t

end Env

end TypeAlgebra
