import TypeAlgebra.Ty.Basic

namespace TypeAlgebra

namespace Ty

mutual

/-- Whether two types are one and the same, with the cells of their variables. -/
def identical : Ty → Ty → Bool
  | absent, absent => true
  | atomic kind, atomic kind' => kind == kind'
  | var v, var w => v == w
  | proc params result, proc params' result' => identicalEach params params' && result.identical result'
  | empty, empty => true
  | tuple elems, tuple elems' => identicalEach elems elems'
  | union parts, union parts' => identicalEach parts parts'
  | inter parts, inter parts' => identicalEach parts parts'
  | pred inner, pred inner' => inner.identical inner'
  | _, _ => false

def identicalEach : List Ty → List Ty → Bool
  | [], [] => true
  | s :: ss, t :: ts => s.identical t && identicalEach ss ts
  | _, _ => false

end

mutual

theorem identical_iff (s t : Ty) : s.identical t = true ↔ s = t := by
  cases s with
  | proc params result =>
    cases t with
    | proc params' result' => simp [identical, identicalEach_iff params, identical_iff result]
    | _ => simp [identical]
  | tuple elems => cases t <;> simp [identical, identicalEach_iff elems]
  | union parts => cases t <;> simp [identical, identicalEach_iff parts]
  | inter parts => cases t <;> simp [identical, identicalEach_iff parts]
  | pred inner => cases t <;> simp [identical, identical_iff inner]
  | _ => cases t <;> simp [identical]

theorem identicalEach_iff (ss ts : List Ty) : identicalEach ss ts = true ↔ ss = ts := by
  cases ss with
  | nil => cases ts <;> simp [identicalEach]
  | cons s ss => cases ts <;> simp [identicalEach, identical_iff s, identicalEach_iff ss]

end

instance : DecidableEq Ty :=
  fun s t ↦ decidable_of_iff _ (identical_iff s t)

end Ty

end TypeAlgebra
