namespace TypeAlgebra

structure Stack (α : Type) where
  /-- The elements, top first. -/
  items : List α := []

namespace Stack

variable {α : Type}

def size (stack : Stack α) : Nat :=
  stack.items.length

def push (stack : Stack α) (a : α) : Stack α :=
  ⟨a :: stack.items⟩

def top? (stack : Stack α) : Option α :=
  stack.items.head?

def pop? (stack : Stack α) : Option (α × Stack α) :=
  match stack.items with
  | [] => none
  | a :: rest => some (a, ⟨rest⟩)

/-- Changes the top element; an empty stack stays empty. -/
def modifyTop (stack : Stack α) (f : α → α) : Stack α :=
  ⟨stack.items.modifyHead f⟩

end Stack

end TypeAlgebra
