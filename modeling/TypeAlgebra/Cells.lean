import TypeAlgebra.Ty.Form
import TypeAlgebra.Ty.Identity

namespace TypeAlgebra

/-- A breach of what the callers of the algebra promise. -/
inductive Fault where
  /-- The variable's cell is not one of these cells. -/
  | foreign (name : String)
  | noCell (name : String)
  | bindAbsent (name : String)
  | alreadyBound (name : String) (contents : Ty)
  | bindCycle (name : String) (target : Ty)
  | cyclicChain (t : Ty)
  /-- The contents of a variable lead back to the variable without end. -/
  | unfounded
  | unknownOperator (symbol : String)
  deriving DecidableEq

def Fault.message : Fault → String
  | foreign name => "type variable " ++ name ++ " does not belong to this context"
  | noCell name => "type variable " ++ name ++ " has no binding cell"
  | bindAbsent name => "cannot bind type variable " ++ name ++ " to nil"
  | alreadyBound name contents =>
    "type variable " ++ name ++ " is already bound to " ++ contents.text
  | bindCycle name target => "binding " ++ name ++ " to " ++ target.text ++ " would create a cycle"
  | cyclicChain t => "cyclic type variable binding through " ++ t.text
  | unfounded => "type variable bindings are not well founded"
  | unknownOperator symbol => "unknown operator " ++ symbol

structure Cell where
  name : String
  contents : Option Ty := none
  deriving DecidableEq

abbrev Cells := List Cell

namespace Cells

/-- A new unbound variable. Fewer than `2 ^ 32` cells are assumed, so that indices fit into words of 32 bits. -/
def allocate (cells : Cells) (name : String) : Var × Cells :=
  (⟨name, some cells.length⟩, cells ++ [⟨name, none⟩])

/-- The variable called `name` among the cells from index `start` on. -/
def findFrom? (cells : Cells) (start : Nat) (name : String) : Option Var :=
  ((cells.drop start).findIdx? (·.name == name)).map fun i ↦ ⟨name, some (start + i)⟩

def cellOf (cells : Cells) (v : Var) : Except Fault (Option Cell) :=
  match v.cell with
  | none => .ok none
  | some i =>
    match cells[i]? with
    | some cell => if cell.name = v.name then .ok (some cell) else .error (.foreign v.name)
    | none => .error (.foreign v.name)

/-- What a variable is directly bound to, which may be another variable. -/
def contents (cells : Cells) (v : Var) : Except Fault (Option Ty) := do
  return (← cells.cellOf v).bind (·.contents)

def isBound (cells : Cells) (v : Var) : Except Fault Bool := do
  return (← cells.contents v).isSome

def follow (cells : Cells) : (steps : Nat) → Ty → Except Fault Ty
  | 0, t => .error (.cyclicChain t)
  | steps + 1, .var v => do
    match ← cells.contents v with
    | some t => cells.follow steps t
    | none => return .var v
  | _ + 1, t => .ok t

/-- Follows bindings from variable to variable up to one that is unbound, or to another type. -/
def deref (cells : Cells) (t : Ty) : Except Fault Ty :=
  match t with
  | .var _ => cells.follow (cells.length + 2) t
  | _ => .ok t

def leadsTo (cells : Cells) (t : Ty) (v : Var) : Except Fault Bool := do
  match ← cells.deref t with
  | .var target => return target.cell == v.cell
  | _ => return false

/-- Binds an unbound variable to a type that does not lead to it. -/
def bind (cells : Cells) (v : Var) (t : Ty) : Except Fault Cells := do
  match v.cell, ← cells.cellOf v with
  | some i, some cell =>
    match t, cell.contents with
    | .absent, _ => throw (.bindAbsent v.name)
    | _, some contents => throw (.alreadyBound v.name contents)
    | t, none =>
      if ← cells.leadsTo t v then throw (.bindCycle v.name t)
      else return cells.set i ⟨cell.name, some t⟩
  | _, _ => throw (.noCell v.name)

def size (cells : Cells) : Nat :=
  cells.foldl (fun n cell ↦ n + 1 + (cell.contents.map Ty.size).getD 0) 0

end Cells

end TypeAlgebra
