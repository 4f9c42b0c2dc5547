namespace TypeAlgebra

/-- Whether two lists have the same length and `test` holds at each place. -/
@[specialize]
def allPairs {α β : Type} {m : Type → Type} [Monad m] (test : α → β → m Bool) (as : List α)
    (bs : List β) : m Bool :=
  if as.length = bs.length then (as.zip bs).allM fun (a, b) ↦ test a b else pure false

end TypeAlgebra
