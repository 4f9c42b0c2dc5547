import TypeAlgebra.Cells

namespace TypeAlgebra

inductive Warning where
  /-- An intersection stays undistributed because it has more than `limit` alternatives. -/
  | undistributed (t : Ty) (limit : Int64)
  deriving DecidableEq

structure Run (α : Type) where
  outcome : Except Fault α
  warnings : List Warning

namespace Run

variable {α β : Type}

@[always_inline, inline]
def bind (run : Run α) (f : α → Run β) : Run β :=
  match run.outcome with
  | .ok a =>
    let next := f a
    ⟨next.outcome, run.warnings ++ next.warnings⟩
  | .error fault => ⟨.error fault, run.warnings⟩

@[always_inline]
instance : Monad Run where
  pure a := ⟨.ok a, []⟩
  bind := Run.bind

@[always_inline]
instance : MonadLift (Except Fault) Run where
  monadLift outcome := ⟨outcome, []⟩

def fail (fault : Fault) : Run α :=
  ⟨.error fault, []⟩

def warn (warning : Warning) : Run Unit :=
  ⟨.ok (), [warning]⟩

instance : LawfulMonad Run := by
  refine .mk' Run ?_ ?_ ?_
  · rintro α ⟨_ | _, _⟩ <;> simp [Functor.map, Run.bind]
  · intro α β a f
    simp [Bind.bind, Run.bind, Pure.pure]
  · rintro α β γ ⟨_ | a, _⟩ f g
    · rfl
    · simp only [Bind.bind, Run.bind]
      cases (f a).outcome <;> simp [List.append_assoc]

end Run

end TypeAlgebra
