import TypeAlgebra.Algebra.Canonical
import TypeAlgebra.Proofs.Sequence
import TypeAlgebra.Proofs.Structure

namespace TypeAlgebra

namespace Coupling

variable {m n : Type → Type} [Monad m] [Monad n] (c : Coupling m n)
variable {f : Var → Var} {p : Ty → Ty → m Bool} {q : Ty → Ty → n Bool} {s t : Ty}

theorem forall₂_rename (f : Var → Var) (ts : List Ty) :
    List.Forall₂ (fun a b ↦ a ∈ ts ∧ b = a.rename f) ts (Ty.renameEach f ts) := by
  rw [Ty.renameEach_eq, List.forall₂_map_right_iff]
  exact List.forall₂_same.2 fun a ha ↦ ⟨ha, rfl⟩

theorem rel_allPairs_rename {ss ts : List Ty}
    (h : ∀ a ∈ ss, ∀ b ∈ ts, c.rel Eq (p a b) (q (a.rename f) (b.rename f))) :
    c.rel Eq (allPairs p ss ts) (allPairs q (Ty.renameEach f ss) (Ty.renameEach f ts)) := by
  refine c.rel_allPairs (forall₂_rename f ss) (forall₂_rename f ts) ?_
  rintro a _ b _ ⟨ha, rfl⟩ ⟨hb, rfl⟩
  exact h a ha b hb

theorem rel_equalBy (hf : ∀ v, (f v).name = v.name)
    (h : ∀ a ∈ s.children, ∀ b ∈ t.children, c.rel Eq (p a b) (q (a.rename f) (b.rename f))) :
    c.rel Eq (Ty.equalBy p s t) (Ty.equalBy q (s.rename f) (t.rename f)) := by
  cases s <;> cases t <;> try exact c.rel_pure rfl
  case var v w =>
    simp only [Ty.rename, Ty.equalBy, hf]
    exact c.rel_pure rfl
  case proc params result params' result' =>
    refine c.rel_test (c.rel_allPairs_rename fun a ha b hb ↦ ?_) ?_ (c.rel_pure rfl)
    · exact h a (List.mem_append_left _ ha) b (List.mem_append_left _ hb)
    · exact h result (by simp [Ty.children]) result' (by simp [Ty.children])
  case tuple elems elems' => exact c.rel_allPairs_rename h
  case union parts parts' => exact c.rel_allPairs_rename h
  case inter parts parts' => exact c.rel_allPairs_rename h
  case pred inner inner' => exact h inner List.mem_cons_self inner' List.mem_cons_self

theorem rel_allM_rename {ts : List Ty} {p : Ty → m Bool} {q : Ty → n Bool}
    (h : ∀ a ∈ ts, c.rel Eq (p a) (q (a.rename f))) :
    c.rel Eq (ts.allM p) ((Ty.renameEach f ts).allM q) := by
  refine c.rel_allM ((forall₂_rename f ts).imp ?_)
  rintro a _ ⟨ha, rfl⟩
  exact h a ha

theorem rel_anyM_rename {ts : List Ty} {p : Ty → m Bool} {q : Ty → n Bool}
    (h : ∀ a ∈ ts, c.rel Eq (p a) (q (a.rename f))) :
    c.rel Eq (ts.anyM p) ((Ty.renameEach f ts).anyM q) := by
  refine c.rel_anyM ((forall₂_rename f ts).imp ?_)
  rintro a _ ⟨ha, rfl⟩
  exact h a ha

/-- The subtype rules compare a component of one side with the other side, or components of both. -/
theorem rel_subtypeBy (hf : ∀ v, (f v).name = v.name)
    (hl : ∀ a ∈ s.children, c.rel Eq (p a t) (q (a.rename f) (t.rename f)))
    (hr : ∀ b ∈ t.children, c.rel Eq (p s b) (q (s.rename f) (b.rename f)))
    (hb : ∀ a ∈ s.children, ∀ b ∈ t.children,
      c.rel Eq (p a b) (q (a.rename f) (b.rename f)) ∧ c.rel Eq (p b a) (q (b.rename f) (a.rename f))) :
    c.rel Eq (Ty.subtypeBy p s t) (Ty.subtypeBy q (s.rename f) (t.rename f)) := by
  cases s <;> cases t <;> try exact c.rel_pure rfl
  case var.var v w =>
    simp only [Ty.rename, Ty.subtypeBy, hf]
    exact c.rel_pure rfl
  case proc.proc params result params' result' =>
    refine c.rel_test ?_ ?_ (c.rel_pure rfl)
    · refine c.rel_allPairs (forall₂_rename f params) (forall₂_rename f params') ?_
      rintro a _ b _ ⟨ha, rfl⟩ ⟨hb', rfl⟩
      exact (hb a (List.mem_append_left _ ha) b (List.mem_append_left _ hb')).2
    · exact (hb result (by simp [Ty.children]) result' (by simp [Ty.children])).1
  case tuple.tuple elems elems' => exact c.rel_allPairs_rename fun a ha b hb' ↦ (hb a ha b hb').1
  all_goals
    first
    | exact c.rel_allM_rename hl
    | exact c.rel_anyM_rename hr

theorem rel_subtypeBy_same (hl : ∀ a ∈ s.children, c.rel Eq (p a t) (q a t))
    (hr : ∀ b ∈ t.children, c.rel Eq (p s b) (q s b))
    (hb : ∀ a ∈ s.children, ∀ b ∈ t.children, c.rel Eq (p a b) (q a b) ∧ c.rel Eq (p b a) (q b a)) :
    c.rel Eq (Ty.subtypeBy p s t) (Ty.subtypeBy q s t) := by
  have h := c.rel_subtypeBy (f := id) (p := p) (q := q) (s := s) (t := t) (fun _ ↦ rfl)
  simp only [Ty.rename_id] at h
  exact h hl hr hb

end Coupling

namespace Ty

inductive Alike (R : Ty → Ty → Prop) : Ty → Ty → Prop
  | absent : Alike R absent absent
  | atomic (kind : Kind) : Alike R (atomic kind) (atomic kind)
  | var {v w : Var} : v.name = w.name → Alike R (var v) (var w)
  | proc {params params' : List Ty} {result result' : Ty} :
      List.Forall₂ R params params' → R result result' →
      Alike R (proc params result) (proc params' result')
  | empty : Alike R empty empty
  | tuple {elems elems' : List Ty} : List.Forall₂ R elems elems' → Alike R (tuple elems) (tuple elems')
  | union {parts parts' : List Ty} : List.Forall₂ R parts parts' → Alike R (union parts) (union parts')
  | inter {parts parts' : List Ty} : List.Forall₂ R parts parts' → Alike R (inter parts) (inter parts')
  | pred {inner inner' : Ty} : R inner inner' → Alike R (pred inner) (pred inner')

theorem Alike.refl {R : Ty → Ty → Prop} {t : Ty} (h : ∀ s ∈ t.children, R s s) : Alike R t t := by
  cases t with
  | absent => exact .absent
  | atomic kind => exact .atomic kind
  | var v => exact .var rfl
  | proc params result =>
    exact .proc (List.forall₂_same.2 fun s hs ↦ h s (List.mem_append_left _ hs))
      (h result (by simp [children]))
  | empty => exact .empty
  | tuple elems => exact .tuple (List.forall₂_same.2 h)
  | union parts => exact .union (List.forall₂_same.2 h)
  | inter parts => exact .inter (List.forall₂_same.2 h)
  | pred inner => exact .pred (h inner List.mem_cons_self)

variable {q : Ty → Ty → Bool} {s t : Ty}

theorem allPairs_bind_iff {ss ts : List Ty} {b : Bool} :
    (allPairs (m := Id) q ss ts >>= fun r ↦ if r then pure b else pure false : Id Bool) = true ↔
      List.Forall₂ (fun a b ↦ q a b = true) ss ts ∧ b = true := by
  rw [← allPairs_iff]
  cases hp : (allPairs (m := Id) q ss ts : Bool)
  · exact ⟨nofun, fun h ↦ nomatch h.1⟩
  · exact ⟨fun h ↦ ⟨rfl, h⟩, fun h ↦ h.2⟩

theorem equalBy_iff : equalBy (m := Id) q s t = true ↔ Alike (fun a b ↦ q a b = true) s t := by
  constructor
  · intro h
    cases s <;> cases t <;> first | (cases h; done) | skip
    case absent.absent => exact .absent
    case atomic.atomic j k =>
      obtain rfl : j = k := eq_of_beq h
      exact .atomic j
    case var.var v w => exact .var (eq_of_beq h)
    case proc.proc params result params' result' =>
      have hb := allPairs_bind_iff.1 h
      exact .proc hb.1 hb.2
    case empty.empty => exact .empty
    case tuple.tuple => exact .tuple (allPairs_iff.1 h)
    case union.union => exact .union (allPairs_iff.1 h)
    case inter.inter => exact .inter (allPairs_iff.1 h)
    case pred.pred => exact .pred h
  · intro h
    cases h with
    | absent => rfl
    | atomic kind => exact beq_self_eq_true kind
    | var hn => exact beq_iff_eq.2 hn
    | proc hp hr => exact allPairs_bind_iff.2 ⟨hp, hr⟩
    | empty => rfl
    | tuple h => exact allPairs_iff.2 h
    | union h => exact allPairs_iff.2 h
    | inter h => exact allPairs_iff.2 h
    | pred h => exact h

end Ty

end TypeAlgebra
