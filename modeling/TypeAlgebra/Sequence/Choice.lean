namespace TypeAlgebra

variable {α : Type}

/-- All ways to take one element of each list; those of the last list vary fastest. -/
def choices : List (List α) → List (List α)
  | [] => [[]]
  | alternatives :: rest =>
    alternatives.flatMap fun a ↦ (choices rest).map (a :: ·)

/-- The product of `size` and `lengths`, given up for `limit + 1` once it passes a positive `limit`. -/
def countFrom (limit : Int64) (size : Int64) : List Int64 → Int64
  | [] => size
  | length :: rest =>
    let size := size * length
    if limit > 0 ∧ size > limit then limit + 1 else countFrom limit size rest

def countChoices (limit : Int64) (lengths : List Int64) : Int64 :=
  countFrom limit 1 lengths

end TypeAlgebra
