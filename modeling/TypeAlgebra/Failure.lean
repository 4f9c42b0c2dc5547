import TypeAlgebra.Cells

namespace TypeAlgebra

inductive Failure where
  | problem (problem : Problem)
  | fault (fault : Fault)
  deriving DecidableEq

instance : MonadLift (Except Fault) (Except Failure) where
  monadLift outcome := outcome.mapError .fault

instance : MonadLift (Except Problem) (Except Failure) where
  monadLift outcome := outcome.mapError .problem

end TypeAlgebra
