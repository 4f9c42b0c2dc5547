import TypeAlgebra.Algebra.Equality
import TypeAlgebra.Algebra.Printed
import TypeAlgebra.Run
import TypeAlgebra.Sequence.Choice
import TypeAlgebra.Sequence.Prune
import TypeAlgebra.Sequence.StableSort

namespace TypeAlgebra

namespace Ty

def ofAlternatives (parts : List Ty) : Ty :=
  if parts.any isAny then any
  else match parts with
    | [] => never
    | [part] => part
    | parts => union parts

def ofFactors : List Ty → Ty
  | [] => any
  | [part] => part
  | parts => inter parts

/--
The structural rules of the subtype relation, of which the first that fits counts; `below` relates the
components. A tuple is a subtype of tuples only.
-/
@[specialize]
def subtypeBy {m : Type → Type} [Monad m] (below : Ty → Ty → m Bool) : Ty → Ty → m Bool
  | union parts, t => parts.allM fun part ↦ below part t
  | empty, union _ => pure false
  | tuple _, union _ => pure false
  | s, union parts => parts.anyM fun part ↦ below s part
  | inter parts, t => parts.allM fun part ↦ below part t
  | empty, inter _ => pure false
  | tuple _, inter _ => pure false
  | s, inter parts => parts.anyM fun part ↦ below s part
  | var v, var w => pure (v.name == w.name)
  | atomic j, atomic k => pure (j == k)
  | proc params result, proc params' result' => do
    if ← allPairs (fun p p' ↦ below p' p) params params' then below result result' else pure false
  | empty, empty => pure true
  | tuple elems, tuple elems' => allPairs below elems elems'
  | _, _ => pure false

end Ty

namespace Env

/--
The order of two types: one of which the other is a subtype is on the side that `general` says, and
types that are not related go by their text.
-/
def orderBy (env : Env) (depth : Nat) (subtype : Ty → Ty → Run Bool) (general : Ordering) (s t : Ty) :
    Run Ordering := do
  if ← env.equalTo depth s t then pure .eq
  else if ← subtype t s then pure general
  else if ← subtype s t then pure general.swap
  else
    let key ← env.sortKeyTo depth s
    let key' ← env.sortKeyTo depth t
    return compare key key'

/-- The order of the parts of a union: more general types come later. -/
def unionOrder (env : Env) (depth : Nat) (subtype : Ty → Ty → Run Bool) (s t : Ty) : Run Ordering :=
  env.orderBy depth subtype .gt s t

/-- The order of the parts of an intersection: more general types come earlier. -/
def interOrder (env : Env) (depth : Nat) (subtype : Ty → Ty → Run Bool) (s t : Ty) : Run Ordering :=
  env.orderBy depth subtype .lt s t

/-- Whether the limit forbids to distribute over unions with these parts. -/
def exceeds (env : Env) (unions : List (List Ty)) : Bool :=
  env.limit > 0 && countChoices env.limit (unions.map fun parts ↦ .ofNat parts.length) > env.limit

/-- An intersection on the left of a subtype test is tested in canonical form. -/
def leftForm (env : Env) (meet : List Ty → Run Ty) : Ty → Run Ty
  | .inter parts => do env.deref (← meet parts)
  | s => pure s

/-- A union on the right of a subtype test is tested in canonical form. -/
def rightForm (env : Env) (join : List Ty → Run Ty) : Ty → Run Ty
  | .union parts => do env.deref (← join parts)
  | t => pure t

-- A subtype test brings an intersection on its left and a union on its right into canonical form, and a canonical form
-- drops the parts that a subtype test finds redundant.
mutual

def subtypeTo (env : Env) : (depth : Nat) → Ty → Ty → Run Bool
  | 0, _, _ => Run.fail .unfounded
  | depth + 1, s, t => do
    let s ← env.deref s
    let t ← env.deref t
    let s ← env.leftForm (env.meetTo depth) s
    let t ← env.rightForm (env.joinTo depth) t
    if ← env.equalTo depth s t then pure true
    else if t.isAny || s.isNever then pure true
    else Ty.subtypeBy (env.subtypeTo depth) s t

def joinTo (env : Env) : (depth : Nat) → List Ty → Run Ty
  | 0, _ => Run.fail .unfounded
  | depth + 1, ts => do
    let parts := (Ty.alternativesEach ts).filter (!·.isNever)
    let kept ← prune (env.subtypeTo depth) parts
    let sorted ← stableSort (env.unionOrder depth (env.subtypeTo depth)) kept
    env.distributeTo depth (.ofAlternatives sorted)

def meetTo (env : Env) : (depth : Nat) → List Ty → Run Ty
  | 0, _ => Run.fail .unfounded
  | depth + 1, ts => do
    let parts := (Ty.factorsEach ts).filter (!·.isAny)
    if parts.any Ty.isNever then pure .never
    else
      let kept ← prune (fun s t ↦ env.subtypeTo depth t s) parts
      let sorted ← stableSort (env.interOrder depth (env.subtypeTo depth)) kept
      env.distributeTo depth (.ofFactors sorted)

/-- Turns an intersection with unions among its parts into a union of intersections. -/
def distributeTo (env : Env) : (depth : Nat) → Ty → Run Ty
  | 0, _ => Run.fail .unfounded
  | depth + 1, .inter parts => do
    let unions := parts.filterMap Ty.unionParts?
    let others := parts.filter (!·.isUnion)
    if unions.isEmpty then pure (.inter parts)
    else if env.exceeds unions then
      Run.warn (.undistributed (.inter parts) env.limit)
      return .inter parts
    else
      let disjuncts ← (choices unions).mapM fun choice ↦ env.meetTo depth (choice ++ others)
      env.joinTo depth disjuncts
  | _ + 1, t => pure t

end

def subtype (env : Env) (s t : Ty) : Run Bool :=
  env.subtypeTo (env.depth [s, t]) s t

def join (env : Env) (ts : List Ty) : Run Ty :=
  env.joinTo (env.depth ts) ts

def meet (env : Env) (ts : List Ty) : Run Ty :=
  env.meetTo (env.depth ts) ts

def order (env : Env) (s t : Ty) : Run Ordering :=
  env.unionOrder (env.depth [s, t]) env.subtype s t

end Env

end TypeAlgebra
