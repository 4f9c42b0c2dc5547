namespace TypeAlgebra

variable {α : Type} {m : Type → Type} [Monad m]

@[specialize]
def pruneFrom (redundant : α → α → m Bool) (kept : List α) : List α → m (List α)
  | [] => pure kept
  | a :: later => do
    if ← later.anyM (redundant a) then
      pruneFrom redundant kept later
    else if ← kept.anyM (redundant a) then
      pruneFrom redundant kept later
    else
      pruneFrom redundant (kept ++ [a]) later

/-- Keeps an element unless it is redundant with a later one or with one already kept. -/
@[specialize]
def prune (redundant : α → α → m Bool) (as : List α) : m (List α) :=
  pruneFrom redundant [] as

end TypeAlgebra
