namespace TypeAlgebra

/-- The kinds of atomic types, each with a code: the six that can be written, and one for each further code. -/
inductive Kind where
  | number
  | boolean
  | string
  | void
  | any
  | never
  | other (code : UInt8) (further : 5 < code)
  deriving DecidableEq

def Kind.code : Kind → UInt8
  | number => 0
  | boolean => 1
  | string => 2
  | void => 3
  | any => 4
  | never => 5
  | other code _ => code

def Kind.ofCode (code : UInt8) : Kind :=
  if further : 5 < code then other code further
  else
    match code.toNat with
    | 0 => number
    | 1 => boolean
    | 2 => string
    | 3 => void
    | 4 => any
    | _ => never

theorem Kind.ofCode_code (kind : Kind) : ofCode kind.code = kind := by
  cases kind with
  | other code further => exact dif_pos further
  | _ => rfl

theorem Kind.code_ofCode (code : UInt8) : (ofCode code).code = code := by
  rw [ofCode]
  split
  · rfl
  · next h =>
    have hle : code.toNat ≤ 5 := Nat.le_of_not_lt h
    have hcases : code.toNat = 0 ∨ code.toNat = 1 ∨ code.toNat = 2 ∨ code.toNat = 3 ∨ code.toNat = 4 ∨
        code.toNat = 5 := by omega
    obtain hc | hc | hc | hc | hc | hc := hcases
    all_goals
      rw [hc]
      exact UInt8.toNat.inj hc.symm

def Kind.keyword : Kind → String
  | number => "number"
  | boolean => "boolean"
  | string => "string"
  | void => "void"
  | any => "any"
  | never => "never"
  | other code _ => "atomic(" ++ toString code ++ ")"

def Kind.ofKeyword? : String → Option Kind
  | "number" => some number
  | "boolean" => some boolean
  | "string" => some string
  | "void" => some void
  | "any" => some any
  | "never" => some never
  | _ => none

/-- A type variable. It is bound through its cell, if it has one. -/
structure Var where
  name : String
  cell : Option Nat := none
  deriving DecidableEq

/-- Type expressions. Any place of an expression may hold no type at all, `absent`. -/
inductive Ty where
  | absent
  | atomic (kind : Kind)
  | var (v : Var)
  | proc (params : List Ty) (result : Ty)
  | empty
  | tuple (elems : List Ty)
  | union (parts : List Ty)
  | inter (parts : List Ty)
  | pred (inner : Ty)
  deriving Inhabited

namespace Ty

def any : Ty :=
  atomic .any

def never : Ty :=
  atomic .never

def isAtomic : Ty → Bool
  | atomic _ => true
  | _ => false

def isAny : Ty → Bool
  | atomic kind => kind == .any
  | _ => false

def isNever : Ty → Bool
  | atomic kind => kind == .never
  | _ => false

def isVar : Ty → Bool
  | var _ => true
  | _ => false

def isProc : Ty → Bool
  | proc .. => true
  | _ => false

def isEmpty : Ty → Bool
  | empty => true
  | _ => false

/-- The empty tuple is a tuple as well. -/
def isTuple : Ty → Bool
  | empty => true
  | tuple _ => true
  | _ => false

def isUnion : Ty → Bool
  | union _ => true
  | _ => false

def isInter : Ty → Bool
  | inter _ => true
  | _ => false

def isPred : Ty → Bool
  | pred _ => true
  | _ => false

/-- The parameters of a procedure type, and then its result. -/
def components? : Ty → Option (List Ty)
  | proc params result => some (params ++ [result])
  | _ => none

def paramTuple? : Ty → Option Ty
  | proc [] _ => some empty
  | proc params _ => some (tuple params)
  | _ => none

mutual

def size : Ty → Nat
  | absent => 1
  | atomic _ => 1
  | var _ => 1
  | proc params result => 1 + sizeEach params + result.size
  | empty => 1
  | tuple elems => 1 + sizeEach elems
  | union parts => 1 + sizeEach parts
  | inter parts => 1 + sizeEach parts
  | pred inner => 1 + inner.size

def sizeEach : List Ty → Nat
  | [] => 0
  | t :: ts => t.size + sizeEach ts

end

def unionParts? : Ty → Option (List Ty)
  | union parts => some parts
  | _ => none

mutual

/-- The parts of the unions nested directly in one another; any other type by itself. -/
def alternatives : Ty → List Ty
  | union parts => alternativesEach parts
  | t => [t]

def alternativesEach : List Ty → List Ty
  | [] => []
  | t :: ts => t.alternatives ++ alternativesEach ts

end

mutual

/-- The parts of the intersections nested directly in one another; any other type by itself. -/
def factors : Ty → List Ty
  | inter parts => factorsEach parts
  | t => [t]

def factorsEach : List Ty → List Ty
  | [] => []
  | t :: ts => t.factors ++ factorsEach ts

end

end Ty

end TypeAlgebra
