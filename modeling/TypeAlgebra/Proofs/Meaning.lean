import TypeAlgebra.Proofs.Distribution
import TypeAlgebra.Proofs.Normalization

namespace TypeAlgebra

inductive Atom where
  | kind (kind : Kind)
  | name (name : String)
  deriving DecidableEq

namespace Ty

mutual

/-- Whether the type holds, given which atoms do. -/
def eval (v : Atom → Bool) : Ty → Bool
  | atomic .any => true
  | atomic .never => false
  | atomic kind => v (.kind kind)
  | var x => v (.name x.name)
  | union parts => evalAny v parts
  | inter parts => evalAll v parts
  | _ => false

def evalAny (v : Atom → Bool) : List Ty → Bool
  | [] => false
  | t :: ts => t.eval v || evalAny v ts

def evalAll (v : Atom → Bool) : List Ty → Bool
  | [] => true
  | t :: ts => t.eval v && evalAll v ts

end

mutual

def atoms : Ty → List Atom
  | atomic .any => []
  | atomic .never => []
  | atomic kind => [.kind kind]
  | var x => [.name x.name]
  | union parts => atomsEach parts
  | inter parts => atomsEach parts
  | _ => []

def atomsEach : List Ty → List Atom
  | [] => []
  | t :: ts => t.atoms ++ atomsEach ts

end

inductive Formula : Ty → Prop
  | atomic (kind : Kind) : Formula (atomic kind)
  | var (v : Var) : Formula (var v)
  | union {parts : List Ty} : (∀ p ∈ parts, Formula p) → Formula (union parts)
  | inter {parts : List Ty} : (∀ p ∈ parts, Formula p) → Formula (inter parts)

inductive Conjunctive : Ty → Prop
  | atomic (kind : Kind) : Conjunctive (atomic kind)
  | var (v : Var) : Conjunctive (var v)
  | inter {parts : List Ty} : (∀ p ∈ parts, Conjunctive p) → Conjunctive (inter parts)

inductive Disjunctive : Ty → Prop
  | atomic (kind : Kind) : Disjunctive (atomic kind)
  | var (v : Var) : Disjunctive (var v)
  | union {parts : List Ty} : (∀ p ∈ parts, Disjunctive p) → Disjunctive (union parts)

variable {s t : Ty} {ts parts : List Ty} {g : Atom} {v : Atom → Bool}

/-- Parts of a union of which none is dropped for another one that means less. -/
def Joinable (s t : Ty) : Prop :=
  s = t ∨ s.atoms.Disjoint t.atoms ∨ (s.Disjunctive ∧ t.Disjunctive) ∨
    (s.Conjunctive ∧ t.Conjunctive ∧ (s.atoms ⊆ t.atoms ↔ t.atoms ⊆ s.atoms))

def Flat (t : Ty) : Prop :=
  t.Conjunctive ∨ t.Disjunctive

/-- Parts of an intersection that are dropped only for what means as much, and that can be distributed. -/
def Meetable (s t : Ty) : Prop :=
  s = t ∨ s.atoms.Disjoint t.atoms ∨
    (s.Flat ∧ t.Flat ∧ (s.Disjunctive → t.Disjunctive → s.atoms ⊆ t.atoms ∨ t.atoms ⊆ s.atoms))

/-- Formulas with parts that do not get in the way of each other. -/
inductive Separable : Ty → Prop
  | atomic (kind : Kind) : Separable (atomic kind)
  | var (v : Var) : Separable (var v)
  | union {parts : List Ty} : (∀ p ∈ parts, Separable p) → (∀ p ∈ parts, ∀ q ∈ parts, p.Joinable q) →
      Separable (union parts)
  | inter {parts : List Ty} : (∀ p ∈ parts, Separable p) → (∀ p ∈ parts, ∀ q ∈ parts, p.Meetable q) →
      Separable (inter parts)

theorem eval_union : (union parts).eval v = true ↔ ∃ p ∈ parts, p.eval v = true := by
  rw [eval]
  induction parts with
  | nil => simp [evalAny]
  | cons p parts ih => simp [evalAny, ih]

theorem eval_inter : (inter parts).eval v = true ↔ ∀ p ∈ parts, p.eval v = true := by
  rw [eval]
  induction parts with
  | nil => simp [evalAll]
  | cons p parts ih => simp [evalAll, ih]

theorem mem_atomsEach : g ∈ atomsEach ts ↔ ∃ t ∈ ts, g ∈ t.atoms := by
  induction ts with
  | nil => simp [atomsEach]
  | cons t ts ih => simp [atomsEach, ih]

/-- What holds of a union if it holds of one of its parts holds if it holds of an alternative. -/
theorem iff_exists_alternative {P : Ty → Prop} (h : ∀ parts, P (union parts) ↔ ∃ p ∈ parts, P p) :
    P t ↔ ∃ p ∈ t.alternatives, P p := by
  induction t using induction_children with
  | step t ih =>
    cases hu : t.isUnion
    · simp [alternatives_of_not_union hu]
    · cases t <;> cases hu
      next parts =>
      have hparts : (∃ p ∈ parts, P p) ↔ ∃ p ∈ parts, ∃ q ∈ p.alternatives, P q :=
        exists_congr fun p ↦ and_congr_right fun hp ↦ ih p hp
      rw [h, hparts, alternatives]
      simp only [mem_alternativesEach]
      grind

theorem iff_exists_factor {P : Ty → Prop} (h : ∀ parts, P (inter parts) ↔ ∃ p ∈ parts, P p) :
    P t ↔ ∃ p ∈ t.factors, P p := by
  induction t using induction_children with
  | step t ih =>
    cases hi : t.isInter
    · simp [factors_of_not_inter hi]
    · cases t <;> cases hi
      next parts =>
      have hparts : (∃ p ∈ parts, P p) ↔ ∃ p ∈ parts, ∃ q ∈ p.factors, P q :=
        exists_congr fun p ↦ and_congr_right fun hp ↦ ih p hp
      rw [h, hparts, factors]
      simp only [mem_factorsEach]
      grind

theorem eval_alternatives : t.eval v = true ↔ ∃ p ∈ t.alternatives, p.eval v = true :=
  iff_exists_alternative (P := fun t ↦ t.eval v = true) fun _ ↦ eval_union

theorem eval_factors : t.eval v = true ↔ ∀ p ∈ t.factors, p.eval v = true := by
  have h : ¬t.eval v = true ↔ ∃ p ∈ t.factors, ¬p.eval v = true :=
    iff_exists_factor (P := fun t ↦ ¬t.eval v = true) fun parts ↦ by rw [eval_inter]; simp
  rw [← not_iff_not, h]
  simp

theorem mem_atoms_alternatives : g ∈ t.atoms ↔ ∃ p ∈ t.alternatives, g ∈ p.atoms :=
  iff_exists_alternative (P := fun t ↦ g ∈ t.atoms) fun _ ↦ mem_atomsEach

theorem mem_atoms_factors : g ∈ t.atoms ↔ ∃ p ∈ t.factors, g ∈ p.atoms :=
  iff_exists_factor (P := fun t ↦ g ∈ t.atoms) fun _ ↦ mem_atomsEach

theorem Formula.child (h : t.Formula) (hs : s ∈ t.children) : s.Formula := by
  cases h with
  | atomic => cases hs
  | var => cases hs
  | union hp => exact hp s hs
  | inter hp => exact hp s hs

theorem Formula.not_tuple (h : t.Formula) : t.isTuple = false := by
  cases h <;> rfl

theorem Disjunctive.formula (h : t.Disjunctive) : t.Formula := by
  induction h with
  | atomic kind => exact .atomic kind
  | var v => exact .var v
  | union _ ih => exact .union ih

/-- Formulas without intersections mean the same whatever is dropped. -/
theorem Disjunctive.separable (h : t.Disjunctive) : t.Separable := by
  induction h with
  | atomic kind => exact .atomic kind
  | var v => exact .var v
  | union hp ih => exact .union ih fun p hm q hm' ↦ .inr (.inr (.inl ⟨hp p hm, hp q hm'⟩))

/-- The formulas over some of the atoms. -/
theorem closed_formula (S : List Atom) : Env.Closed fun t ↦ t.Formula ∧ t.atoms ⊆ S where
  child {s t} h hs := by
    refine ⟨h.1.child hs, fun g hg ↦ h.2 ?_⟩
    cases h.1 with
    | atomic => cases hs
    | var => cases hs
    | union => exact mem_atomsEach.2 ⟨s, hs, hg⟩
    | inter => exact mem_atomsEach.2 ⟨s, hs, hg⟩
  any := ⟨.atomic _, nofun⟩
  never := ⟨.atomic _, nofun⟩
  union h := ⟨.union fun p hp ↦ (h p hp).1, fun g hg ↦ by
    obtain ⟨p, hp, hgp⟩ := mem_atomsEach.1 hg
    exact (h p hp).2 hgp⟩
  inter h := ⟨.inter fun p hp ↦ (h p hp).1, fun g hg ↦ by
    obtain ⟨p, hp, hgp⟩ := mem_atomsEach.1 hg
    exact (h p hp).2 hgp⟩

theorem eval_detached (t : Ty) : t.detached.eval v = t.eval v := by
  induction t using induction_children with
  | step t ih =>
    cases t with
    | atomic kind => rfl
    | union parts =>
      have hmap : (∃ p ∈ parts.map detached, p.eval v = true) ↔ ∃ p ∈ parts, p.detached.eval v = true := by
        simp
      rw [Bool.eq_iff_iff, detached_union, eval_union, eval_union, hmap]
      exact exists_congr fun p ↦ and_congr_right fun hp ↦ by rw [ih p hp]
    | inter parts =>
      rw [Bool.eq_iff_iff, detached_inter, eval_inter, eval_inter, List.forall_mem_map]
      exact forall₂_congr fun p hp ↦ by rw [ih p hp]
    | _ => rfl

def ofAtom : Atom → Ty
  | .kind kind => atomic kind
  | .name name => var ⟨name, none⟩

structure IsAtom (t : Ty) (g : Atom) : Prop where
  eq : t = ofAtom g
  atoms : t.atoms = [g]

theorem IsAtom.eval (h : t.IsAtom g) : t.eval v = v g := by
  obtain ⟨rfl, ha⟩ := h
  cases g with
  | kind kind => cases kind <;> first | rfl | cases ha
  | name => rfl

theorem IsAtom.mem (h : t.IsAtom g) : g ∈ t.atoms :=
  h.atoms ▸ List.mem_singleton_self g

theorem IsAtom.eq_of_mem {f : Atom} (h : t.IsAtom g) (hf : f ∈ t.atoms) : f = g :=
  List.mem_singleton.1 (h.atoms ▸ hf)

theorem IsAtom.plain (h : t.IsAtom g) :
    t.isUnion = false ∧ t.isInter = false ∧ t.isNever = false ∧ t.isAny = false := by
  obtain ⟨rfl, ha⟩ := h
  cases g with
  | kind kind => cases kind <;> first | exact ⟨rfl, rfl, rfl, rfl⟩ | cases ha
  | name => exact ⟨rfl, rfl, rfl, rfl⟩

theorem IsAtom.disjunctive (h : t.IsAtom g) : t.Disjunctive := by
  obtain ⟨rfl, -⟩ := h
  cases g with
  | kind kind => exact .atomic kind
  | name => exact .var _

theorem Conjunctive.child (h : t.Conjunctive) (hs : s ∈ t.children) : s.Conjunctive := by
  cases h with
  | atomic => cases hs
  | var => cases hs
  | inter hp => exact hp s hs

theorem Disjunctive.child (h : t.Disjunctive) (hs : s ∈ t.children) : s.Disjunctive := by
  cases h with
  | atomic => cases hs
  | var => cases hs
  | union hp => exact hp s hs

theorem Disjunctive.not_inter (h : t.Disjunctive) : t.isInter = false := by
  cases h <;> rfl

theorem not_never_of_eval (h : t.eval v = true) : t.isNever = false := by
  refine Bool.eq_false_of_not_eq_true fun hn ↦ ?_
  rw [isNever_iff.1 hn] at h
  cases h

theorem plain_of_mem_atoms (hg : g ∈ t.atoms) : t.isNever = false ∧ t.isAny = false := by
  constructor
  · refine Bool.eq_false_of_not_eq_true fun hn ↦ ?_
    rw [isNever_iff.1 hn] at hg
    cases hg
  · refine Bool.eq_false_of_not_eq_true fun ha ↦ ?_
    rw [isAny_iff.1 ha] at hg
    cases hg

theorem eval_ofAlternatives : (ofAlternatives parts).eval v = true ↔ ∃ p ∈ parts, p.eval v = true := by
  unfold ofAlternatives
  split
  · next hany =>
    obtain ⟨p, hp, hpa⟩ := List.any_eq_true.1 hany
    rw [isAny_iff.1 hpa] at hp
    exact ⟨fun _ ↦ ⟨_, hp, rfl⟩, fun _ ↦ rfl⟩
  · split
    · simp [never, eval]
    · simp
    · exact eval_union

theorem disjunctive_ofAlternatives (h : ∀ p ∈ parts, p.Disjunctive) : (ofAlternatives parts).Disjunctive :=
  ofAlternatives_closed (.atomic _) (.atomic _) .union h

theorem mem_atoms_ofAlternatives (hany : ∀ p ∈ parts, p.isAny = false) (hs : s ∈ parts) (hg : g ∈ s.atoms) :
    g ∈ (ofAlternatives parts).atoms := by
  have hany : parts.any isAny = false := List.any_eq_false.2 fun p hp ↦ Bool.not_eq_true _ ▸ hany p hp
  unfold ofAlternatives
  rw [hany, if_neg Bool.false_ne_true]
  split
  · cases hs
  · rwa [List.mem_singleton.1 hs] at hg
  · exact mem_atomsEach.2 ⟨s, hs, hg⟩

theorem eval_ofFactors : (ofFactors parts).eval v = true ↔ ∀ p ∈ parts, p.eval v = true := by
  unfold ofFactors
  split
  · simp [any, eval]
  · simp
  · exact eval_inter

theorem mem_atoms_ofFactors (hs : s ∈ parts) (hg : g ∈ s.atoms) : g ∈ (ofFactors parts).atoms := by
  unfold ofFactors
  split
  · cases hs
  · rwa [List.mem_singleton.1 hs] at hg
  · exact mem_atomsEach.2 ⟨s, hs, hg⟩

end Ty

namespace Env

open Ty (Formula Disjunctive Conjunctive Joinable Meetable Flat Separable)

variable {limit : Int64} {p q s t : Ty} {ts cs parts : List Ty} {g : Atom} {v : Atom → Bool}

structure NormalFormula (limit : Int64) (t : Ty) : Prop where
  normal : Normal limit t
  formula : t.Formula

theorem NormalFormula.child (h : NormalFormula limit t) (hs : s ∈ t.children) : NormalFormula limit s :=
  ⟨h.normal.child hs, h.formula.child hs⟩

theorem NormalFormula.exists_isAtom (h : NormalFormula limit t) (hu : t.isUnion = false)
    (hi : t.isInter = false) (hn : t.isNever = false) (ha : t.isAny = false) : ∃ g, t.IsAtom g := by
  obtain ⟨hnormal, hf⟩ := h
  cases hf with
  | atomic kind =>
    cases kind with
    | any => cases ha
    | never => cases hn
    | _ => exact ⟨.kind _, rfl, rfl⟩
  | var x =>
    refine ⟨.name x.name, ?_, rfl⟩
    have hc := hnormal.named x (List.mem_singleton_self x)
    cases x
    cases hc
    rfl
  | union => cases hu
  | inter => cases hi

structure Conjunction (limit : Int64) (t : Ty) : Prop extends NormalFormula limit t where
  plain : t.isUnion = false ∧ t.isNever = false ∧ t.isAny = false

theorem NormalFormula.conjunction (h : NormalFormula limit t) (hs : s ∈ t.alternatives)
    (hn : s.isNever = false) (ha : s.isAny = false) : Conjunction limit s :=
  ⟨Ty.alternative_of_child NormalFormula.child h hs, (Ty.alternatives_spec hs).1, hn, ha⟩

theorem Conjunction.factor (hl : limit ≤ 0) (h : Conjunction limit t) (hp : p ∈ t.factors) :
    Normal limit p ∧ ∃ g, p.IsAtom g := by
  obtain ⟨hu, hn, ha⟩ := h.plain
  have hpf : NormalFormula limit p := Ty.factor_of_child NormalFormula.child h.toNormalFormula hp
  obtain ⟨hpu, hpi, hpn⟩ := factor_plain hl h.normal hu hn hp
  exact ⟨hpf.normal, hpf.exists_isAtom hpu hpi hpn (factor_not_any h.normal ha hp)⟩

theorem Conjunction.eval_iff (hl : limit ≤ 0) (h : Conjunction limit t) :
    t.eval v = true ↔ ∀ g ∈ t.atoms, v g = true := by
  rw [Ty.eval_factors]
  constructor
  · intro he g hg
    obtain ⟨p, hp, hg⟩ := Ty.mem_atoms_factors.1 hg
    obtain ⟨f, hf⟩ := (h.factor hl hp).2
    rw [hf.eq_of_mem hg]
    exact hf.eval.symm.trans (he p hp)
  · intro hv p hp
    obtain ⟨g, hg⟩ := (h.factor hl hp).2
    rw [hg.eval]
    exact hv g (Ty.mem_atoms_factors.2 ⟨p, hp, hg.mem⟩)

theorem Conjunction.exists_atom (hl : limit ≤ 0) (h : Conjunction limit t) : ∃ g, g ∈ t.atoms := by
  obtain ⟨p, hp, -⟩ := exists_factor h.normal h.plain.2.2
  obtain ⟨g, hg⟩ := (h.factor hl hp).2
  exact ⟨g, Ty.mem_atoms_factors.2 ⟨p, hp, hg.mem⟩⟩

theorem isAtom_below {f : Atom} (hp : Normal limit p) (hq : Normal limit q) (hg : p.IsAtom g)
    (hf : q.IsAtom f) : Below limit p q ↔ p = q := by
  obtain ⟨hpu, hpi, hpn, -⟩ := hg.plain
  obtain ⟨hqu, hqi, -, hqa⟩ := hf.plain
  refine ⟨fun h ↦ ?_, fun h ↦ h ▸ below_refl hp⟩
  rcases (simple_below hp hq hpu hpi hqu hqi).1 h with h | rfl | rfl | h
  · exact h
  · cases hqa
  · cases hpn
  · rw [hg.eq] at h
    cases g <;> cases h

/-- An atom is below the conjunctions that have it. -/
theorem isAtom_below_conjunction (hl : limit ≤ 0) (hp : Normal limit p) (hg : p.IsAtom g)
    (ht : Conjunction limit t) : Below limit p t ↔ g ∈ t.atoms := by
  have hmem : (∃ q ∈ t.factors, p = q) ↔ g ∈ t.atoms := by
    rw [Ty.mem_atoms_factors]
    constructor
    · rintro ⟨q, hq, rfl⟩
      exact ⟨p, hq, hg.mem⟩
    · rintro ⟨q, hq, hgq⟩
      obtain ⟨f, hf⟩ := (ht.factor hl hq).2
      obtain rfl := hf.eq_of_mem hgq
      exact ⟨q, hq, hg.eq.trans hf.eq.symm⟩
  have each : ∀ q ∈ t.factors, Below limit p q ↔ p = q := by
    intro q hq
    obtain ⟨hqn, f, hf⟩ := ht.factor hl hq
    exact isAtom_below hp hqn hg hf
  rw [← hmem]
  cases hi : t.isInter
  · rw [Ty.factors_of_not_inter hi] at each ⊢
    simpa using each
  · cases t <;> cases hi
    rw [ht.normal.factors_inter] at each ⊢
    obtain ⟨hu, hi, -⟩ := hg.plain
    rw [below_inter hp ht.normal hu hi, and_iff_right hg.disjunctive.formula.not_tuple]
    exact exists_congr fun q ↦ and_congr_right fun hq ↦ each q hq

theorem Conjunction.below_iff (hl : limit ≤ 0) (hs : Conjunction limit s) (ht : Conjunction limit t) :
    Below limit s t ↔ s.atoms ⊆ t.atoms := by
  have each : ∀ p ∈ s.factors, Below limit p t ↔ p.atoms ⊆ t.atoms := by
    intro p hp
    obtain ⟨hpn, g, hg⟩ := hs.factor hl hp
    rw [isAtom_below_conjunction hl hpn hg ht, hg.atoms, List.cons_subset, and_iff_left (List.nil_subset _)]
  have hatoms : s.atoms ⊆ t.atoms ↔ ∀ p ∈ s.factors, Below limit p t := by
    constructor
    · exact fun h p hp ↦ (each p hp).2 fun g hg ↦ h (Ty.mem_atoms_factors.2 ⟨p, hp, hg⟩)
    · intro h g hg
      obtain ⟨p, hp, hgp⟩ := Ty.mem_atoms_factors.1 hg
      exact (each p hp).1 (h p hp) hgp
  rw [hatoms]
  cases hi : s.isInter
  · rw [Ty.factors_of_not_inter hi, List.forall_mem_singleton]
  · cases s <;> cases hi
    rw [inter_below hs.normal ht.normal ht.plain.1, hs.normal.factors_inter, or_iff_right_of_imp]
    rintro rfl
    rw [hs.normal.factors_inter] at hatoms
    exact hatoms.1 (List.Subset.refl _)

/-- One formula is below another one if each alternative of it is below one of the other. -/
theorem NormalFormula.below_iff (hs : NormalFormula limit s) (ht : NormalFormula limit t) :
    Below limit s t ↔ ∀ p ∈ s.alternatives, ∃ q ∈ t.alternatives, Below limit p q := by
  have halt : ∀ p ∈ s.alternatives, NormalFormula limit p :=
    fun p hp ↦ Ty.alternative_of_child NormalFormula.child hs hp
  rw [← alternatives_below hs.normal ht.normal fun p hp ↦ (halt p hp).formula.not_tuple]
  refine forall₂_congr fun p hp ↦ ?_
  cases hu : t.isUnion
  · simp [Ty.alternatives_of_not_union hu]
  · cases t <;> cases hu
    rw [below_union (halt p hp).normal ht.normal (Ty.alternatives_spec hp).1, ht.normal.alternatives_union,
      and_iff_right (halt p hp).formula.not_tuple]

theorem plain_of_below (hs : Normal limit s) (ht : Normal limit t) (h : Below limit s t)
    (hn : s.isNever = false) (ha : t.isAny = false) : s.isAny = false ∧ t.isNever = false := by
  refine ⟨Bool.eq_false_of_not_eq_true fun hsa ↦ ?_, Bool.eq_false_of_not_eq_true fun htn ↦ ?_⟩
  · rw [Ty.isAny_iff.1 hsa] at h
    rw [eq_any_of_below ht h] at ha
    cases ha
  · rw [Ty.isNever_iff.1 htn] at h
    rw [eq_never_of_below hs h] at hn
    cases hn

theorem NormalFormula.conjunctions (hs : NormalFormula limit s) (ht : NormalFormula limit t)
    (hp : p ∈ s.alternatives) (hq : q ∈ t.alternatives) (h : Below limit p q) (hn : p.isNever = false)
    (ha : q.isAny = false) : Conjunction limit p ∧ Conjunction limit q := by
  obtain ⟨hpa, hqn⟩ := plain_of_below (Ty.alternative_of_child Normal.child hs.normal hp)
    (Ty.alternative_of_child Normal.child ht.normal hq) h hn ha
  exact ⟨hs.conjunction hp hn hpa, ht.conjunction hq hqn ha⟩

/-- Related formulas have an atom in common. -/
theorem NormalFormula.exists_atom_of_below (hl : limit ≤ 0) (hs : NormalFormula limit s)
    (ht : NormalFormula limit t) (h : Below limit s t) (hn : s.isNever = false) (ha : t.isAny = false) :
    ∃ g ∈ s.atoms, g ∈ t.atoms := by
  obtain ⟨hsa, htn⟩ := plain_of_below hs.normal ht.normal h hn ha
  obtain ⟨p, hp⟩ := exists_alternative hs.normal
  obtain ⟨q, hq, hpq⟩ := (hs.below_iff ht).1 h p hp
  obtain ⟨-, hpn, -⟩ := alternative_plain hs.normal hn hsa hp
  obtain ⟨-, -, hqa⟩ := alternative_plain ht.normal htn ha hq
  obtain ⟨hpc, hqc⟩ := hs.conjunctions ht hp hq hpq hpn hqa
  obtain ⟨g, hg⟩ := hpc.exists_atom hl
  exact ⟨g, Ty.mem_atoms_alternatives.2 ⟨p, hp, hg⟩,
    Ty.mem_atoms_alternatives.2 ⟨q, hq, (hpc.below_iff hl hqc).1 hpq hg⟩⟩

theorem NormalFormula.isAtom (ht : NormalFormula limit t) (hd : t.Disjunctive) (hp : p ∈ t.alternatives)
    (hg : g ∈ p.atoms) : p.IsAtom g := by
  have hps : NormalFormula limit p := Ty.alternative_of_child NormalFormula.child ht hp
  obtain ⟨hn, ha⟩ := Ty.plain_of_mem_atoms hg
  obtain ⟨f, hf⟩ := hps.exists_isAtom (Ty.alternatives_spec hp).1
    (Ty.alternative_of_child Disjunctive.child hd hp).not_inter hn ha
  exact hf.eq_of_mem hg ▸ hf

/-- Formulas without intersections are related by their atoms. -/
theorem NormalFormula.below_of_atoms (hl : limit ≤ 0) (hs : NormalFormula limit s)
    (ht : NormalFormula limit t) (hds : s.Disjunctive) (hdt : t.Disjunctive) (ha : s.isAny = false)
    (h : s.atoms ⊆ t.atoms) : Below limit s t := by
  cases hn : s.isNever
  · refine (hs.below_iff ht).2 fun p hp ↦ ?_
    obtain ⟨-, hpn, hpa⟩ := alternative_plain hs.normal hn ha hp
    have hpc := hs.conjunction hp hpn hpa
    obtain ⟨g, hg⟩ := hpc.exists_atom hl
    obtain ⟨q, hq, hgq⟩ := Ty.mem_atoms_alternatives.1 (h (Ty.mem_atoms_alternatives.2 ⟨p, hp, hg⟩))
    obtain rfl : p = q := (hs.isAtom hds hp hg).eq.trans (ht.isAtom hdt hq hgq).eq.symm
    exact ⟨p, hq, below_refl hpc.normal⟩
  · rw [Ty.isNever_iff.1 hn]
    exact never_below ht.normal

/-- A type below a formula without intersections holds only where the formula does. -/
theorem NormalFormula.eval_of_below (hl : limit ≤ 0) (hs : NormalFormula limit s) (ht : NormalFormula limit t)
    (hd : t.Disjunctive) (h : Below limit s t) (hv : s.eval v = true) : t.eval v = true := by
  obtain ⟨p, hp, hpv⟩ := Ty.eval_alternatives.1 hv
  obtain ⟨q, hq, hpq⟩ := (hs.below_iff ht).1 h p hp
  refine Ty.eval_alternatives.2 ⟨q, hq, ?_⟩
  cases ha : q.isAny
  · obtain ⟨hpc, hqc⟩ := hs.conjunctions ht hp hq hpq (Ty.not_never_of_eval hpv) ha
    obtain ⟨g, hg⟩ := hpc.exists_atom hl
    rw [(ht.isAtom hd hq ((hpc.below_iff hl hqc).1 hpq hg)).eval]
    exact (hpc.eval_iff hl).1 hpv g hg
  · rw [Ty.isAny_iff.1 ha]
    rfl

end Env

end TypeAlgebra
