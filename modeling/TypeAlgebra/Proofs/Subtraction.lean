import TypeAlgebra.Proofs.ParsedTypes

namespace TypeAlgebra

namespace Ty

/-- A list of types as one type: what stands for no types, the only type, or all of them together. -/
def collapsed (none : Ty) (several : List Ty → Ty) : List Ty → Ty
  | [] => none
  | [t] => t
  | ts => several ts

theorem ofFactors_eq_collapsed (parts : List Ty) : ofFactors parts = collapsed any inter parts := by
  match parts with
  | [] => rfl
  | [_] => rfl
  | _ :: _ :: _ => rfl

theorem ofAlternatives_eq_collapsed {parts : List Ty} (h : ∀ p ∈ parts, p.isAny = false) :
    ofAlternatives parts = collapsed never union parts := by
  have hany : parts.any isAny = false := by
    rw [List.any_eq_false]
    intro p hp
    simp [h p hp]
  match parts with
  | [] => rfl
  | [p] => simp [ofAlternatives, collapsed, h p List.mem_cons_self]
  | p :: q :: parts =>
    rw [ofAlternatives_several hany (by simp)]
    rfl

end Ty

namespace Env

variable {env : Env} {s t : Ty} {parts rest : List Ty} {d : Nat}

theorem Sifted.sublist (h : env.Sifted parts) (hsub : rest.Sublist parts) : env.Sifted rest :=
  ⟨h.apart.sublist hsub, List.Pairwise.sublist hsub h.ascending⟩

/-- Some parts of a canonical union make a union as they are. -/
theorem joined_of_sublist (h : env.Settled (.union parts)) (hsub : rest.Sublist parts) :
    env.joined rest = .collapsed .never .union rest := by
  have hsettled : ∀ p ∈ rest, env.Settled p := fun p hp ↦ h.child (hsub.subset hp)
  have hsound : ∀ p ∈ rest, env.Sound p := fun p hp ↦ (hsettled p hp).sound
  have hplain : ∀ p ∈ rest, p.isUnion = false ∧ p.isNever = false ∧ p.isAny = false :=
    fun p hp ↦ h.canonical.unionParts.plain p (hsub.subset hp)
  rw [joined_eq_ofAlternatives hsound fun p hp ↦ (hsettled p hp).canonical,
    joinParts_of_sifted hsound (fun p hp ↦ ⟨(hplain p hp).1, (hplain p hp).2.1⟩)
      (h.unionParts_sifted.sublist hsub),
    Ty.ofAlternatives_eq_collapsed fun p hp ↦ (hplain p hp).2.2]

/-- Some parts of a canonical intersection make an intersection as they are, if there is no limit on distribution:
no union is among them then. -/
theorem met_of_sublist (hl : env.limit ≤ 0) (h : env.Settled (.inter parts)) (hsub : rest.Sublist parts) :
    env.met rest = .collapsed .any .inter rest := by
  have hsound : ∀ p ∈ rest, env.Sound p := fun p hp ↦ (h.child (hsub.subset hp)).sound
  have hparts := h.canonical.interParts
  have hplain : ∀ p ∈ rest, p.isInter = false ∧ p.isAny = false ∧ p.isNever = false :=
    fun p hp ↦ hparts.plain p (hsub.subset hp)
  have hplain' : ∀ p ∈ rest, p.isInter = false ∧ p.isAny = false :=
    fun p hp ↦ ⟨(hplain p hp).1, (hplain p hp).2.1⟩
  have hnever : ¬(meetFactors rest).any Ty.isNever = true := by
    rw [meetFactors_of_plain hplain', List.any_eq_true]
    intro hn
    obtain ⟨p, hp, hpn⟩ := hn
    simp [(hplain p hp).2.2] at hpn
  have hkeeps : env.keeps rest = true := by
    rw [keeps, unionsIn_isEmpty.2 fun p hp ↦ hparts.unlimited hl p (hsub.subset hp), Bool.true_or]
  rw [met_eq (sound_inter hsound).toFounded, if_neg hnever,
    meetParts_of_sifted hsound hplain' (h.interParts_sifted.sublist hsub), ← Ty.ofFactors_eq_collapsed]
  rcases rest with _ | ⟨p, _ | ⟨q, rest⟩⟩
  · exact spread_of_not_inter env rfl
  · exact spread_of_not_inter env (hplain p List.mem_cons_self).1
  · exact spread_keep hkeeps

theorem unrelated_of_apart (hp : ∀ p ∈ parts, env.Founded p) (h : parts.Pairwise (Apart env.below)) :
    (env.unrelated parts).outcome = .ok true := by
  have none_related {s : Ty} {ts : List Ty} (hs : env.Founded s) (hts : ∀ t ∈ ts, env.Founded t)
      (hapart : ∀ t ∈ ts, Apart env.below s t) :
      (ts.anyM fun t ↦ do if ← env.subtype s t then return true else env.subtype t s).outcome =
        .ok false := by
    induction ts with
    | nil => rfl
    | cons t ts ih =>
      obtain ⟨ht, hts⟩ := List.forall_mem_cons.1 hts
      obtain ⟨hst, hapart⟩ := List.forall_mem_cons.1 hapart
      have htest : (do if ← env.subtype s t then return true else env.subtype t s : Run Bool).outcome =
          .ok false := by
        rw [Run.outcome_bind_ok (subtype_eq hs ht), hst.1]
        exact (subtype_eq ht hs).trans (congrArg _ hst.2)
      rw [List.anyM, Run.outcome_bind_ok htest]
      exact ih hts hapart
  induction parts with
  | nil => rfl
  | cons s parts ih =>
    obtain ⟨hs, hparts⟩ := List.forall_mem_cons.1 hp
    obtain ⟨hapart, hrest⟩ := List.pairwise_cons.1 h
    rw [unrelated, Run.outcome_bind_ok (none_related hs hparts hapart)]
    exact ih hparts hrest

/-- The parts of a canonical intersection are unrelated. -/
theorem isUnrelatedInter_eq (ht : env.Settled t) : (env.isUnrelatedInter t).outcome = .ok t.isInter := by
  cases t with
  | inter parts =>
    have hnever : ¬parts.any Ty.isNever = true := by
      rw [List.any_eq_true]
      intro hn
      obtain ⟨p, hp, hpn⟩ := hn
      simp [(ht.canonical.interParts.plain p hp).2.2] at hpn
    rw [isUnrelatedInter, if_neg hnever]
    exact unrelated_of_apart (fun p hp ↦ (ht.child hp).founded) ht.interParts_sifted.apart
  | _ => rfl

structure Proper (env : Env) (s t : Ty) : Prop where
  distinct : env.same s t = false
  not_any : s.isAny = false
  not_never : t.isNever = false
  not_inter : t.isInter = false

def shorn (env : Env) : Ty → Ty → Ty
  | .union parts, t => .collapsed .never .union (parts.filter (!env.below · t))
  | .inter parts, t => .collapsed .any .inter (parts.filter (!env.below · t))
  | s, .union parts => env.met [s, .collapsed .never .union (parts.filter (!env.below · s))]
  | s, t => if env.below s t then .never else s

def remainder (env : Env) (s t : Ty) : Ty :=
  if env.same s t then .never else if s.isAny || t.isNever || t.isInter then s else env.shorn s t

theorem Proper.remainder_eq (h : env.Proper s t) : env.remainder s t = env.shorn s t := by
  simp [remainder, h.distinct, h.not_any, h.not_never, h.not_inter]

/-- The tests that a difference begins with, on canonical types. -/
theorem outcome_guarded (hs : env.Settled s) (ht : env.Settled t) {rest : Ty → Ty → Run Ty}
    (hrest : env.Proper s t → (rest s t).outcome = .ok (env.shorn s t)) :
    (do
      let s ← env.deref s
      let t ← env.deref t
      if ← env.equal s t then return .never
      else if s.isAny then return .any
      else if t.isNever then return s
      else if ← env.isUnrelatedInter t then return s
      else rest s t : Run Ty).outcome = .ok (env.remainder s t) := by
  have hds : (liftM (env.deref s) : Run Ty).outcome = .ok s := hs.free.deref
  have hdt : (liftM (env.deref t) : Run Ty).outcome = .ok t := ht.free.deref
  have hequal : (liftM (env.equal s t) : Run Bool).outcome = .ok (env.same s t) :=
    equal_eq hs.founded ht.founded
  rw [remainder, Run.outcome_bind_ok hds, Run.outcome_bind_ok hdt, Run.outcome_bind_ok hequal]
  cases he : env.same s t
  case true => rfl
  cases ha : s.isAny
  case true =>
    rw [Ty.isAny_iff.1 ha]
    rfl
  cases hn : t.isNever
  case true => rfl
  rw [if_neg Bool.false_ne_true, if_neg Bool.false_ne_true, if_neg Bool.false_ne_true,
    Run.outcome_bind_ok (isUnrelatedInter_eq ht)]
  cases hi : t.isInter
  case true => rfl
  exact hrest ⟨he, ha, hn, hi⟩

theorem join_kept (hs : env.Settled (.union parts)) (ht : env.Settled t) :
    (env.withoutSubtypes t parts >>= env.join).outcome = .ok (env.shorn (.union parts) t) := by
  have hparts : ∀ p ∈ parts, env.Founded p := fun p hp ↦ (hs.child hp).founded
  rw [Run.outcome_bind_ok (withoutSubtypes_eq ht.founded hparts), shorn,
    ← joined_of_sublist hs List.filter_sublist]
  exact join_eq (founded_union.2 fun p hp ↦ hparts p (List.mem_filter.1 hp).1)

theorem meet_kept (hl : env.limit ≤ 0) (hs : env.Settled (.inter parts)) (ht : env.Settled t) :
    (env.withoutSubtypes t parts >>= env.meet).outcome = .ok (env.shorn (.inter parts) t) := by
  have hparts : ∀ p ∈ parts, env.Founded p := fun p hp ↦ (hs.child hp).founded
  rw [Run.outcome_bind_ok (withoutSubtypes_eq ht.founded hparts), shorn,
    ← met_of_sublist hl hs List.filter_sublist]
  exact meet_eq (founded_inter.2 fun p hp ↦ hparts p (List.mem_filter.1 hp).1)

theorem diffTo_union_eq (hs : env.Settled (.union parts)) (ht : env.Settled t) :
    (env.diffTo (d + 1) (.union parts) t).outcome = .ok (env.remainder (.union parts) t) := by
  rw [diffTo]
  exact outcome_guarded hs ht fun _ ↦ join_kept hs ht

/-- No further difference is asked for where an intersection is subtracted. -/
theorem diffTo_inter_right (hs : env.Settled s) (ht : env.Settled t) (hi : t.isInter = true) :
    (env.diffTo (d + 1) s t).outcome = .ok (env.remainder s t) := by
  rw [diffTo]
  refine outcome_guarded hs ht fun hproper ↦ ?_
  cases hproper.not_inter.symm.trans hi

theorem met_of_mem_never {ts : List Ty} (hts : ∀ t ∈ ts, env.Founded t) (h : .never ∈ ts) :
    env.met ts = .never := by
  have hfactor : Ty.never ∈ meetFactors ts :=
    mem_meetFactors.2 ⟨Ty.mem_factorsEach.2 ⟨.never, h, List.mem_singleton_self _⟩, rfl⟩
  rw [met_eq (founded_inter.2 hts), if_pos (List.any_eq_true.2 ⟨_, hfactor, rfl⟩)]

/-- Where a union is subtracted from a simple type, the sides are exchanged first. -/
theorem meet_flipped (hs : env.Settled s) (hi : s.isInter = false) (ht : env.Settled (.union parts))
    (hproper : env.Proper s (.union parts)) :
    (env.diffTo (d + 1) (.union parts) s >>= fun r ↦ env.meet [s, r]).outcome =
      .ok (env.met [s, .collapsed .never .union (parts.filter (!env.below · s))]) := by
  have hsettled : env.Settled (env.remainder (.union parts) s) := by
    obtain ⟨r, hr, hsettled⟩ := (settled_inherited env).diffTo_union (d := d) ht hs
    rwa [Except.ok.inj ((diffTo_union_eq ht hs).symm.trans hr)]
  have hrest : env.Settled (.collapsed .never .union (parts.filter (!env.below · s))) := by
    rw [← joined_of_sublist ht List.filter_sublist]
    exact .joined fun p hp ↦ ht.child (List.mem_filter.1 hp).1
  have hfounded {r : Ty} (hr : env.Settled r) : ∀ t ∈ [s, r], env.Founded t :=
    List.forall_mem_cons.2 ⟨hs.founded, List.forall_mem_singleton.2 hr.founded⟩
  rw [Run.outcome_bind_ok (diffTo_union_eq ht hs), meet_eq (founded_inter.2 (hfounded hsettled))]
  cases hn : s.isNever
  · have hdistinct : env.same (.union parts) s = false := by
      rw [← hproper.distinct, Bool.eq_iff_iff, same_iff ht.free hs.free, same_iff hs.free ht.free, eq_comm]
    have hflip : env.Proper (.union parts) s := ⟨hdistinct, rfl, hn, hi⟩
    rw [hflip.remainder_eq, shorn]
  · obtain rfl := Ty.isNever_iff.1 hn
    rw [met_of_mem_never (hfounded hsettled) List.mem_cons_self,
      met_of_mem_never (hfounded hrest) List.mem_cons_self]

theorem diffTo_eq (hl : env.limit ≤ 0) (hs : env.Settled s) (ht : env.Settled t) :
    (env.diffTo (d + 2) s t).outcome = .ok (env.remainder s t) := by
  have test (b : Bool) (r r' : Ty) :
      (if b then pure r else pure r' : Run Ty).outcome = .ok (if b then r else r') := by
    cases b <;> rfl
  rw [diffTo]
  refine outcome_guarded hs ht fun hproper ↦ ?_
  cases s with
  | union parts => exact join_kept hs ht
  | inter parts => exact meet_kept hl hs ht
  | _ =>
    cases t with
    | union parts => exact meet_flipped hs rfl ht hproper
    | inter parts => cases hproper.not_inter
    | _ => exact (Run.outcome_bind_ok (subtype_eq hs.founded ht.founded)).trans (test _ _ _)

theorem diff_eq (hl : env.limit ≤ 0) (hs : env.Settled s) (ht : env.Settled t) :
    (env.diff s t).outcome = .ok (env.remainder s t) := by
  have hdepth : 2 ≤ env.depth [s, t] :=
    le_trans (by decide) (Nat.pow_le_pow_left (Nat.le_add_left 4 _) 6)
  obtain ⟨d, hd⟩ := Nat.exists_eq_add_of_le' hdepth
  rw [diff, hd]
  exact diffTo_eq hl hs ht

end Env

namespace Context

variable {context : Context} {s t : Ty}

theorem below_eq_decide (hs : context.env.Founded s) (ht : context.env.Founded t) :
    context.env.below s t = decide (context.Subtype s t) := by
  rw [Bool.eq_iff_iff, decide_eq_true_iff, Subtype, Env.subtype_eq hs ht]
  exact ⟨congrArg Except.ok, Except.ok.inj⟩

/-- The parts that a difference keeps are those that are not subtypes of what is subtracted. -/
theorem kept_eq {parts : List Ty} (hs : ∀ p ∈ parts, context.env.Founded p) (ht : context.env.Founded t) :
    parts.filter (!context.env.below · t) = parts.filter (¬context.Subtype · t) := by
  refine List.filter_congr fun p hp ↦ ?_
  rw [below_eq_decide (hs p hp) ht, decide_not]

/--
Without a limit on distribution, the difference of a parsed union or intersection and another parsed type that
is not an intersection is made of the parts that are not subtypes of that type, in their order. An intersection
takes nothing away: its parts are unrelated, so that the difference never goes into them.
-/
theorem diff_removes_covered_parts (hl : context.limit ≤ 0) (hs : context.Parsed s) (ht : context.Parsed t) :
    (t.isInter = true → (context.env.isUnrelatedInter t).outcome = .ok true ∧
      (context.env.diffTo 1 s t).outcome = (context.env.diff s t).outcome) ∧
    (context.env.equal s t = .ok false → t ≠ .never →
      (t.isInter = true → (context.env.diff s t).outcome = .ok s) ∧
      (t.isInter = false → ∀ parts,
        (s = .union parts → (context.env.diff s t).outcome =
          .ok (.collapsed .never .union (parts.filter (¬context.Subtype · t)))) ∧
        (s = .inter parts → (context.env.diff s t).outcome =
          .ok (.collapsed .any .inter (parts.filter (¬context.Subtype · t)))))) := by
  have hs := hs.legible.settled
  have ht := ht.legible.settled
  have hl : context.env.limit ≤ 0 := hl
  have hdiff := Env.diff_eq hl hs ht
  refine ⟨fun hi ↦ ?_, fun hne hn ↦ ?_⟩
  · exact ⟨hi ▸ Env.isUnrelatedInter_eq ht, (Env.diffTo_inter_right hs ht hi).trans hdiff.symm⟩
  have hdistinct : context.env.same s t = false := by
    rw [Env.same, hne]
    rfl
  constructor
  · intro hi
    rw [hdiff, Env.remainder, hdistinct, hi]
    simp
  · intro hi parts
    have hproper (ha : s.isAny = false) : context.env.Proper s t :=
      ⟨hdistinct, ha, by simpa [← Ty.isNever_iff] using hn, hi⟩
    constructor
    all_goals
      rintro rfl
      have hparts : ∀ p ∈ parts, context.env.Founded p := fun p hp ↦ (hs.child hp).founded
      rw [hdiff, (hproper rfl).remainder_eq, Env.shorn, kept_eq hparts ht.founded]

theorem diff_removes_covered_parts_procedure :
    ((Env.mk [⟨"x", none⟩] 0).diff
      (.union [.proc [.atomic .boolean] (.atomic .string), .proc [.atomic .number] (.atomic .number),
        .var ⟨"x", some 0⟩])
      (.proc [.atomic .number] .any)).outcome =
        .ok (.union [.proc [.atomic .boolean] (.atomic .string), .var ⟨"x", some 0⟩]) := by
  have hs : Parsed { cells := [⟨"x", none⟩] } (.union [.proc [.atomic .boolean] (.atomic .string),
      .proc [.atomic .number] (.atomic .number), .var ⟨"x", some 0⟩]) :=
    ⟨by decide +kernel, {}, rfl, .inl ⟨"(union (number -> number) (boolean -> string) x)", by decide +kernel⟩⟩
  have ht : Parsed { cells := [⟨"x", none⟩] } (.proc [.atomic .number] .any) :=
    ⟨by decide +kernel, {}, rfl, .inl ⟨"(number -> any)", by decide +kernel⟩⟩
  obtain ⟨-, hdiff⟩ := diff_removes_covered_parts (by decide) hs ht
  obtain ⟨-, hparts⟩ := hdiff (by decide +kernel) (by decide +kernel)
  exact ((hparts rfl _).1 rfl).trans (by decide +kernel)

end Context

end TypeAlgebra
