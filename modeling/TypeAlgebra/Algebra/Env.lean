import TypeAlgebra.Cells

namespace TypeAlgebra

structure Env where
  cells : Cells := []
  /-- How many alternatives an intersection may be distributed into; zero or less for any number. -/
  limit : Int64 := 0

namespace Env

def deref (env : Env) (t : Ty) : Except Fault Ty :=
  env.cells.deref t

/--
How deep the recursions of the algebra may go on these types. Where no variable is reachable from its
own contents they stay below it: it is a power of the number of nodes in reach.
-/
def depth (env : Env) (ts : List Ty) : Nat :=
  Nat.pow (env.cells.size + Ty.sizeEach ts + 4) 6

end Env

end TypeAlgebra
