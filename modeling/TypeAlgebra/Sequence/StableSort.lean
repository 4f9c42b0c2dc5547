namespace TypeAlgebra

variable {α : Type} {m : Type → Type} [Monad m]

/-- Inserts `a` into a run whose last element stands first, from the last one on. -/
@[specialize]
def insertBackward (order : α → α → m Ordering) (a : α) : List α → m (List α)
  | [] => pure [a]
  | b :: rest => do
    if (← order a b) = .lt then
      return b :: (← insertBackward order a rest)
    else
      return a :: b :: rest

@[specialize]
def insertionSort (order : α → α → m Ordering) (as : List α) : m (List α) :=
  List.reverse <$> as.foldlM (fun run a ↦ insertBackward order a run) []

/-- Merges two sorted runs; of equals, those of the left run come first. -/
@[specialize]
def mergeRuns (order : α → α → m Ordering) : List α → List α → m (List α)
  | [], right => pure right
  | left, [] => pure left
  | a :: left, b :: right => do
    if (← order b a) = .lt then
      return b :: (← mergeRuns order (a :: left) right)
    else
      return a :: (← mergeRuns order left (b :: right))
termination_by left right => left.length + right.length

/-- Cuts a list into runs of `size + 1`; the last may be shorter. -/
def runsOf (size : Nat) : List α → List (List α)
  | [] => []
  | a :: rest => (a :: rest.take size) :: runsOf size (rest.drop size)
termination_by as => as.length

/--
Runs of twenty are sorted by insertion and then merged. An element moves ahead of another only if it is less, so ties
keep their order.
-/
@[specialize]
def stableSort (order : α → α → m Ordering) (as : List α) : m (List α) := do
  let runs ← (runsOf 19 as).mapM (insertionSort order)
  runs.foldlM (mergeRuns order) []

end TypeAlgebra
