import TypeAlgebra.Proofs.Equivalence
import TypeAlgebra.Proofs.Substitution

namespace TypeAlgebra

namespace Coupling

theorem mirrored_optional_iff {ε α : Type} {x y : OptionT (Except ε) α} :
    mirrored.optional.rel Eq x y ↔ x = y := by
  have hoption {a b : Option α} : Option.Rel Eq a b ↔ a = b := by
    constructor
    · rintro (rfl | _) <;> rfl
    · rintro rfl
      cases a with
      | none => exact .none
      | some a => exact .some rfl
  constructor
  · rintro (⟨a, b, hx, hy, hab⟩ | ⟨e, hx, hy⟩)
    · exact hx.trans ((congrArg Except.ok (hoption.1 hab)).trans hy.symm)
    · exact hx.trans hy.symm
  · rintro rfl
    change mirrored.rel (Option.Rel Eq) x.run x.run
    cases x.run with
    | error e => exact .inr ⟨e, rfl, rfl⟩
    | ok a => exact .inl ⟨a, a, rfl, rfl, hoption.2 rfl⟩

def Swapped (pairs pairs' : List (String × String)) : Prop :=
  pairs' = pairs.map Prod.swap

variable (c : Coupling (Except Fault) (Except Fault)) {p q : Ty → Ty → Matching} {s t : Ty} {ss ts : List Ty}

theorem rel_matchEach_swapped (h : ∀ a ∈ ss, ∀ b ∈ ts, c.optional.rel Swapped (p a b) (q b a)) :
    c.optional.rel Swapped (Ty.matchEach p ss ts) (Ty.matchEach q ts ss) := by
  rw [Ty.matchEach, Ty.matchEach]
  by_cases hlen : ss.length = ts.length
  · rw [if_pos hlen, if_pos hlen.symm]
    refine c.optional.rel_bind (R := List.Forall₂ Swapped) (c.optional.rel_mapM ?_) ?_
    · rw [← List.zip_swap ss ts, List.forall₂_map_right_iff]
      refine List.forall₂_same.2 fun x hx ↦ ?_
      exact h x.1 (List.of_mem_zip hx).1 x.2 (List.of_mem_zip hx).2
    · intro found found' hfound
      have hmap : found.map (List.map Prod.swap) = found' := by
        rw [← List.forall₂_eq_eq_eq, List.forall₂_map_left_iff]
        exact hfound.imp fun _ _ ↦ Eq.symm
      refine c.optional.rel_pure ?_
      rw [Swapped, ← hmap, List.map_flatten]
  · rw [if_neg hlen, if_neg (Ne.symm hlen)]
    exact c.rel_failure

theorem rel_matchBy_swapped
    (h : ∀ a ∈ s.children, ∀ b ∈ t.children, c.optional.rel Swapped (p a b) (q b a)) :
    c.optional.rel Swapped (Ty.matchBy p s t) (Ty.matchBy q t s) := by
  cases s <;> cases t <;> try exact c.rel_failure
  case var.var v w =>
    refine c.optional.rel_pure ?_
    by_cases he : v.name = w.name
    · simp [Swapped, he]
    · simp [Swapped, he, Ne.symm he]
  case atomic.atomic j k =>
    rw [Ty.matchBy, Ty.matchBy]
    by_cases he : j = k
    · rw [if_pos he, if_pos he.symm]
      exact c.optional.rel_pure rfl
    · rw [if_neg he, if_neg (Ne.symm he)]
      exact c.rel_failure
  case proc.proc params result params' result' =>
    rw [Ty.matchBy, Ty.matchBy]
    by_cases he : params.length = params'.length
    · rw [if_pos he, if_pos he.symm]
      exact c.rel_matchEach_swapped h
    · rw [if_neg he, if_neg (Ne.symm he)]
      exact c.rel_failure
  case empty.empty => exact c.optional.rel_pure rfl
  case tuple.tuple => exact c.rel_matchEach_swapped h
  case union.union => exact c.rel_matchEach_swapped h
  case inter.inter => exact c.rel_matchEach_swapped h
  case pred.pred inner inner' => exact h inner List.mem_cons_self inner' List.mem_cons_self

end Coupling

namespace Ty

variable {p q : Ty → Ty → Matching} {s t : Ty} {ss ts : List Ty} {f : Ty → Ty}

theorem matchEach_map (p : Ty → Ty → Matching) (f : Ty → Ty) (ss ts : List Ty) :
    matchEach p (ss.map f) (ts.map f) = matchEach (fun a b ↦ p (f a) (f b)) ss ts := by
  rw [matchEach, matchEach, List.length_map, List.length_map, List.zip_map, List.mapM_map]
  rfl

theorem matchBy_mapChildren (p : Ty → Ty → Matching) (f : Ty → Ty) (s t : Ty) :
    matchBy p (s.mapChildren f) (t.mapChildren f) = matchBy (fun a b ↦ p (f a) (f b)) s t := by
  cases s <;> cases t <;> try rfl
  case proc.proc params result params' result' =>
    have heach := matchEach_map p f (params ++ [result]) (params' ++ [result'])
    rw [List.map_append, List.map_append] at heach
    simp only [mapChildren, matchBy, List.length_map, ← heach]
    rfl
  all_goals exact matchEach_map p f _ _

theorem matchBy_congr (h : ∀ a ∈ s.children, ∀ b ∈ t.children, p a b = q a b) :
    matchBy p s t = matchBy q s t := by
  have hr := Coupling.mirrored.rel_matchBy (f := id) (p := p) (q := q) (s := s) (t := t) (fun _ ↦ rfl)
    fun a ha b hb ↦ by
      rw [rename_id, rename_id, h a ha b hb]
      exact Coupling.mirrored_optional_iff.2 rfl
  rw [rename_id, rename_id] at hr
  exact Coupling.mirrored_optional_iff.1 hr

def Matches (x : Matching) : Prop :=
  ∃ pairs, x.run = .ok (some pairs)

theorem exists_of_run_bind {α β : Type} {x : OptionT (Except Fault) α} {f : α → OptionT (Except Fault) β} {b : β}
    (h : (x >>= f).run = .ok (some b)) : ∃ a, x.run = .ok (some a) ∧ (f a).run = .ok (some b) := by
  rw [OptionT.run_bind] at h
  cases hx : x.run with
  | error e =>
    rw [hx] at h
    cases h
  | ok found =>
    rw [hx] at h
    cases found with
    | none => cases h
    | some a => exact ⟨a, rfl, h⟩

theorem forall₂_of_matchEach (h : Matches (matchEach p ss ts)) :
    List.Forall₂ (fun a b ↦ Matches (p a b)) ss ts := by
  have each {xs : List (Ty × Ty)} {found : List (List (String × String))}
      (hf : (xs.mapM fun (s, t) ↦ p s t).run = .ok (some found)) : ∀ x ∈ xs, Matches (p x.1 x.2) := by
    induction xs generalizing found with
    | nil => simp
    | cons x xs ih =>
      rw [List.mapM_cons] at hf
      obtain ⟨pairs, hx, hf⟩ := exists_of_run_bind hf
      obtain ⟨found, hxs, -⟩ := exists_of_run_bind hf
      exact List.forall_mem_cons.2 ⟨⟨pairs, hx⟩, ih hxs⟩
  obtain ⟨pairs, hpairs⟩ := h
  rw [matchEach] at hpairs
  by_cases hlen : ss.length = ts.length
  · rw [if_pos hlen] at hpairs
    obtain ⟨found, hfound, -⟩ := exists_of_run_bind hpairs
    exact List.forall₂_iff_zip.2 ⟨hlen, fun hx ↦ each hfound _ hx⟩
  · rw [if_neg hlen] at hpairs
    cases hpairs

/-- Types that match have nothing missing on top, and are built alike if they are not variables. -/
theorem alike_of_matchBy (h : Matches (matchBy p s t)) :
    s ≠ absent ∧ (s.isVar = true ∨ Alike (fun a b ↦ Matches (p a b)) s t) := by
  obtain ⟨pairs, hpairs⟩ := h
  cases s <;> cases t <;> first | (cases hpairs; done) | refine ⟨by simp, ?_⟩
  case var.var v w => exact .inl rfl
  case atomic.atomic j k =>
    rw [matchBy] at hpairs
    by_cases he : j = k
    · subst he
      exact .inr (.atomic j)
    · rw [if_neg he] at hpairs
      cases hpairs
  case proc.proc params result params' result' =>
    rw [matchBy] at hpairs
    by_cases hlen : params.length = params'.length
    · rw [if_pos hlen] at hpairs
      have heach := forall₂_of_matchEach ⟨pairs, hpairs⟩
      have hparams := List.forall₂_take_append _ _ _ heach
      have hresult := List.forall₂_drop_append _ _ _ heach
      rw [List.take_left' hlen] at hparams
      rw [List.drop_left' hlen] at hresult
      cases hresult with
      | cons hresult _ => exact .inr (.proc hparams hresult)
    · rw [if_neg hlen] at hpairs
      cases hpairs
  case empty.empty => exact .inr .empty
  case tuple.tuple => exact .inr (.tuple (forall₂_of_matchEach ⟨pairs, hpairs⟩))
  case union.union => exact .inr (.union (forall₂_of_matchEach ⟨pairs, hpairs⟩))
  case inter.inter => exact .inr (.inter (forall₂_of_matchEach ⟨pairs, hpairs⟩))
  case pred.pred => exact .inr (.pred ⟨pairs, hpairs⟩)

theorem Alike.exists_right {R : Ty → Ty → Prop} (h : Alike R s t) :
    ∀ a ∈ s.children, ∃ b ∈ t.children, R a b := by
  have each {ss ts : List Ty} (h : List.Forall₂ R ss ts) : ∀ a ∈ ss, ∃ b ∈ ts, R a b := by
    induction h with
    | nil => simp
    | @cons a b ss ts hab _ ih =>
      refine List.forall_mem_cons.2 ⟨⟨b, List.mem_cons_self, hab⟩, fun c hc ↦ ?_⟩
      obtain ⟨d, hd, hcd⟩ := ih c hc
      exact ⟨d, List.mem_cons_of_mem b hd, hcd⟩
  cases h with
  | proc hparams hresult => exact each (List.rel_append hparams (.cons hresult .nil))
  | tuple h => exact each h
  | union h => exact each h
  | inter h => exact each h
  | pred h => exact each (.cons h .nil)
  | _ => simp [children]

theorem children_of_isVar (h : t.isVar = true) : t.children = [] := by
  cases t <;> first | rfl | cases h

theorem vars_ne_nil_of_isVar (h : t.isVar = true) : (t.mapChildren f).vars ≠ [] := by
  cases t <;> cases h
  simp [mapChildren, vars]

theorem mapChildren_ne_absent (h : t ≠ absent) : t.mapChildren f ≠ absent := by
  cases t <;> simp_all [mapChildren]

theorem varsEach_eq (ts : List Ty) : varsEach ts = ts.flatMap vars := by
  induction ts with
  | nil => rfl
  | cons t ts ih => rw [varsEach, ih, List.flatMap_cons]

/-- The names that are met are those of the variables in the components. -/
theorem namesBy_eq {names : Ty → Except Fault (List String)}
    (h : ∀ s ∈ t.children, names s = .ok ((f s).vars.map Var.name)) :
    t.namesBy names = .ok ((t.mapChildren f).vars.map Var.name) := by
  have each {ts : List Ty} (h : ∀ s ∈ ts, names s = .ok ((f s).vars.map Var.name)) :
      (do return (← ts.mapM names).flatten : Except Fault (List String)) =
        .ok ((varsEach (ts.map f)).map Var.name) := by
    have hpure : ts.mapM names = pure (ts.map fun s ↦ (f s).vars.map Var.name) := by
      rw [← List.mapM_pure]
      exact mapM_congr h
    rw [hpure, varsEach_eq, List.flatMap_def, List.map_flatten, List.map_map, List.map_map]
    rfl
  cases t with
  | proc params result =>
    have hvars : (proc (params.map f) (f result)).vars = varsEach ((params ++ [result]).map f) := by
      simp [vars, varsEach_eq]
    rw [mapChildren, hvars]
    exact each h
  | tuple elems => exact each h
  | union parts => exact each h
  | inter parts => exact each h
  | pred inner => exact h inner List.mem_cons_self
  | _ => rfl

end Ty

namespace Env

variable {env : Env} {s t : Ty} {d : Nat} {r : String → String}

theorem matchTo_succ (hs : env.Founded s) (ht : env.Founded t) (d : Nat) :
    env.matchTo (d + 1) s t = Ty.matchBy (env.matchTo d) (env.resolved s) (env.resolved t) := by
  rw [matchTo, (resolved_spec hs).1, (resolved_spec ht).1]
  rfl

def found (env : Env) (s t : Ty) : Option (List (String × String)) :=
  answer (env.matchTo (env.depth [s, t]) s t).run

theorem matchTo_eq_found (hs : env.Founded s) (ht : env.Founded t) (hd : env.rank s < d) :
    (env.matchTo d s t).run = .ok (env.found s t) := by
  have hdepth : env.rank s < env.depth [s, t] := rank_lt_depth List.mem_cons_self
  obtain ⟨pairs, -, hm, -⟩ := matchTo_founded hs ht hd
  obtain ⟨pairs', -, hm', -⟩ := matchTo_founded hs ht hdepth
  rw [found, (matchTo_halts hm).eq (matchTo_halts hm'), hm']
  rfl

def balanced : Option (List (String × String)) → Bool
  | some pairs => distinctCount pairs.unzip.1 == distinctCount pairs.unzip.2
  | none => false

theorem equivalent_eq (hs : env.Founded s) (ht : env.Founded t) :
    env.equivalent s t = .ok (balanced (env.found s t)) := by
  rw [equivalent, matchTo_eq_found hs ht (rank_lt_depth List.mem_cons_self)]
  cases env.found s t <;> rfl

theorem matchTo_substituted (d : Nat) (hs : env.Founded s) (ht : env.Founded t) :
    env.matchTo d (env.substituted s) (env.substituted t) = env.matchTo d s t := by
  induction d generalizing s t with
  | zero => rfl
  | succ d ih =>
    rw [matchTo_succ (founded_substituted hs) (founded_substituted ht), matchTo_succ hs ht,
      resolved_substituted hs, resolved_substituted ht, Ty.matchBy_mapChildren]
    exact Ty.matchBy_congr fun a ha b hb ↦ ih (hs.resolved.child ha) (ht.resolved.child hb)

/-- Whether types are equivalent depends on what they stand for. -/
theorem equivalent_substituted (hs : env.Founded s) (ht : env.Founded t) :
    env.equivalent (env.substituted s) (env.substituted t) = env.equivalent s t := by
  have hd : env.rank (env.substituted s) < max (env.rank (env.substituted s)) (env.rank s) + 1 := by omega
  have hd' : env.rank s < max (env.rank (env.substituted s)) (env.rank s) + 1 := by omega
  have hfound := matchTo_eq_found (founded_substituted hs) (founded_substituted ht) hd
  rw [matchTo_substituted _ hs ht, matchTo_eq_found hs ht hd'] at hfound
  rw [equivalent_eq hs ht, equivalent_eq (founded_substituted hs) (founded_substituted ht),
    Except.ok.inj hfound]

theorem matchTo_swapped (d : Nat) (hs : env.Founded s) (ht : env.Founded t) :
    Coupling.mirrored.optional.rel Coupling.Swapped (env.matchTo d s t) (env.matchTo d t s) := by
  induction d generalizing s t with
  | zero => exact .inr ⟨.unfounded, rfl, rfl⟩
  | succ d ih =>
    rw [matchTo_succ hs ht, matchTo_succ ht hs]
    exact Coupling.mirrored.rel_matchBy_swapped fun a ha b hb ↦ ih (hs.resolved.child ha) (ht.resolved.child hb)

theorem balanced_swapped {found found' : Option (List (String × String))}
    (h : Option.Rel Coupling.Swapped found found') : balanced found = balanced found' := by
  cases h with
  | none => rfl
  | @some pairs pairs' h =>
    have hfst : (pairs.map Prod.swap).map Prod.fst = pairs.map Prod.snd := by simp
    have hsnd : (pairs.map Prod.swap).map Prod.snd = pairs.map Prod.fst := by simp
    rw [h, balanced, balanced, List.unzip_fst, List.unzip_snd, List.unzip_fst, List.unzip_snd, hfst, hsnd]
    exact Bool.beq_comm

theorem equivalent_comm (hs : env.Founded s) (ht : env.Founded t) :
    env.equivalent s t = env.equivalent t s := by
  have hs' : env.rank s < max (env.rank s) (env.rank t) + 1 := by omega
  have ht' : env.rank t < max (env.rank s) (env.rank t) + 1 := by omega
  rw [equivalent_eq hs ht, equivalent_eq ht hs]
  rcases matchTo_swapped (max (env.rank s) (env.rank t) + 1) hs ht with ⟨found, found', hx, hy, h⟩ | ⟨e, he, -⟩
  · rw [matchTo_eq_found hs ht hs'] at hx
    rw [matchTo_eq_found ht hs ht'] at hy
    rw [Except.ok.inj hx, Except.ok.inj hy, balanced_swapped h]
  · rw [matchTo_eq_found hs ht hs'] at he
    cases he

/-- Types that match stand for types with nothing missing. If these have no variables, they are equal. -/
theorem spec_of_matchTo (hs : env.Founded s) (ht : env.Founded t) (h : Ty.Matches (env.matchTo d s t)) :
    (env.substituted s).Whole ∧ ((env.substituted s).vars = [] → env.same s t = true) := by
  induction d generalizing s t with
  | zero =>
    obtain ⟨pairs, hpairs⟩ := h
    cases hpairs
  | succ d ih =>
    rw [matchTo_succ hs ht] at h
    obtain ⟨hne, halike⟩ := Ty.alike_of_matchBy h
    have hpartner : ∀ a ∈ (env.resolved s).children, ∃ b ∈ (env.resolved t).children,
        Ty.Matches (env.matchTo d a b) := by
      rcases halike with hvar | halike
      · simp [Ty.children_of_isVar hvar]
      · exact halike.exists_right
    rw [substituted_eq hs]
    constructor
    · refine .node (Ty.mapChildren_ne_absent hne) ?_
      rw [Ty.children_mapChildren]
      refine List.forall_mem_map.2 fun a ha ↦ ?_
      obtain ⟨b, hb, hab⟩ := hpartner a ha
      exact (ih (hs.resolved.child ha) (ht.resolved.child hb) hab).1
    · intro hvars
      rcases halike with hvar | halike
      · exact absurd hvars (Ty.vars_ne_nil_of_isVar hvar)
      rw [same_eq hs ht]
      refine Ty.equalBy_iff.2 (halike.imp fun a ha b hb hab ↦ ?_)
      refine (ih (hs.resolved.child ha) (ht.resolved.child hb) hab).2 ?_
      rw [List.eq_nil_iff_forall_not_mem] at hvars ⊢
      refine fun v hv ↦ hvars v (Ty.mem_vars_of_child ?_ hv)
      rw [Ty.children_mapChildren]
      exact List.mem_map_of_mem ha

theorem namesTo_eq (ht : env.Founded t) (hd : env.rank t < d) :
    env.namesTo d t = .ok ((env.substituted t).vars.map Var.name) := by
  induction d generalizing t with
  | zero => exact absurd hd (Nat.not_lt_zero _)
  | succ d ih =>
    rw [namesTo, (resolved_spec ht).1, substituted_eq ht]
    refine Ty.namesBy_eq fun s hs ↦ ih (ht.resolved.child hs) ?_
    have := rank_child_resolved ht hs
    omega

theorem freeNames_eq (ht : env.Founded t) :
    env.freeNames t =
      .ok (((env.substituted t).vars.map Var.name).eraseDups.mergeSort fun a b ↦ a ≤ b) := by
  rw [freeNames, namesTo_eq ht (rank_lt_depth List.mem_cons_self)]
  rfl

/-- The free names of a type are those of the variables in what it stands for. -/
theorem exists_freeNames (ht : env.Founded t) :
    ∃ names, env.freeNames t = .ok names ∧ ∀ n, n ∈ names ↔ ∃ v ∈ (env.substituted t).vars, v.name = n := by
  refine ⟨_, freeNames_eq ht, fun n ↦ ?_⟩
  rw [List.mem_mergeSort, List.mem_eraseDups, List.mem_map]

theorem same_substituted (hs : env.Founded s) (ht : env.Founded t) :
    env.same (env.substituted s) (env.substituted t) = env.same s t := by
  have hd : env.rank (env.substituted s) < max (env.rank (env.substituted s)) (env.rank s) + 1 := by omega
  have hd' : env.rank s < max (env.rank (env.substituted s)) (env.rank s) + 1 := by omega
  have hsame := equalTo_eq_same (founded_substituted hs) (founded_substituted ht) hd
  rw [equalTo_substituted _ hs ht, equalTo_eq_same hs ht hd'] at hsame
  exact (Except.ok.inj hsame).symm

theorem equivalent_of_same (hs : env.Founded s) (ht : env.Founded t) (hw : (env.substituted s).Whole)
    (h : env.same s t = true) : env.equivalent s t = .ok true := by
  have hfs := free_substituted hs
  have hft := free_substituted ht
  have hdetached : (env.substituted t).detached = (env.substituted s).detached.renamed id := by
    rw [← same_substituted hs ht, same_iff hfs hft] at h
    rw [← h]
    exact (Ty.rename_id _).symm
  rw [← equivalent_substituted hs ht]
  exact equivalent_in_place hfs hft hw (fun _ _ _ _ ↦ id) hdetached

/-- A type is equivalent to what it stands for under other names. -/
theorem equivalent_renaming (hs : env.Founded s) (hw : (env.substituted s).Whole)
    (hr : ∀ v ∈ (env.substituted s).vars, ∀ w ∈ (env.substituted s).vars,
      r v.name = r w.name → v.name = w.name) :
    env.equivalent s ((env.substituted s).detached.renamed r) = .ok true := by
  have hnamed := named_renamed (r := r) (env.substituted s).named_detached
  have hfree : env.Free ((env.substituted s).detached.renamed r) := free_of_named hnamed
  rw [← equivalent_substituted hs hfree.founded, hfree.substituted_eq]
  exact equivalent_in_place (free_substituted hs) hfree hw hr (Ty.detached_of_named _ hnamed)

theorem matches_of_balanced (hs : env.Founded s) (ht : env.Founded t) (h : balanced (env.found s t) = true) :
    Ty.Matches (env.matchTo (env.rank s + 1) s t) := by
  cases hf : env.found s t with
  | none =>
    rw [hf] at h
    cases h
  | some pairs =>
    refine ⟨pairs, ?_⟩
    rw [matchTo_eq_found hs ht (Nat.lt_succ_self _), hf]

/--
Equivalence is symmetric. Equal types are equivalent, if nothing is missing in what they stand for, and so is a
type to its renamings without a clash of names, where the bound variables have been replaced and the parts of
unions and intersections are left at their places. Equivalent types without free names are equal. A type with
something missing is equivalent to no type.
-/
theorem equivalent_laws (hs : env.Founded s) (ht : env.Founded t) :
    ∃ verdict names, env.equivalent s t = .ok verdict ∧ env.equivalent t s = .ok verdict ∧
      env.freeNames s = .ok names ∧
      (names = [] → verdict = true → env.equal s t = .ok true) ∧
      ((env.substituted s).Whole →
        (env.equal s t = .ok true → verdict = true) ∧
        ∀ r : String → String, (∀ m ∈ names, ∀ n ∈ names, r m = r n → m = n) →
          env.equivalent s ((env.substituted s).detached.renamed r) = .ok true) ∧
      (¬(env.substituted s).Whole → verdict = false) := by
  obtain ⟨names, hnames, hmem⟩ := exists_freeNames hs
  have hequivalent := equivalent_eq hs ht
  refine ⟨_, names, hequivalent, equivalent_comm hs ht ▸ hequivalent, hnames, ?_, ?_, ?_⟩
  · intro hnone h
    have hvars : (env.substituted s).vars = [] := by
      rw [List.eq_nil_iff_forall_not_mem]
      intro v hv
      have hname := (hmem v.name).2 ⟨v, hv, rfl⟩
      simp [hnone] at hname
    rw [equal_eq hs ht, (spec_of_matchTo hs ht (matches_of_balanced hs ht h)).2 hvars]
  · intro hw
    constructor
    · intro h
      rw [equal_eq hs ht] at h
      exact Except.ok.inj (hequivalent.symm.trans (equivalent_of_same hs ht hw (Except.ok.inj h)))
    · intro r hr
      refine equivalent_renaming hs hw fun v hv w hw ↦ ?_
      exact hr _ ((hmem _).2 ⟨v, hv, rfl⟩) _ ((hmem _).2 ⟨w, hw, rfl⟩)
  · intro hw
    rw [Bool.eq_false_iff]
    exact fun h ↦ hw (spec_of_matchTo hs ht (matches_of_balanced hs ht h)).1

def boundProcedure : Env :=
  ⟨[⟨"f", some (.proc [.var ⟨"y", some 1⟩] (.var ⟨"z", some 2⟩))⟩, ⟨"y", none⟩, ⟨"z", none⟩], 0⟩

-- The variable is equivalent to the procedure, also if the names are exchanged.
theorem equivalent_laws_exchanged_names :
    boundProcedure.equivalent (.proc [.var ⟨"y", some 1⟩] (.var ⟨"z", some 2⟩)) (.var ⟨"f", some 0⟩) = .ok true ∧
      boundProcedure.equivalent (.var ⟨"f", some 0⟩) (.proc [.var ⟨"z", none⟩] (.var ⟨"y", none⟩)) =
        .ok true := by
  have ht : boundProcedure.Free (.proc [.var ⟨"y", some 1⟩] (.var ⟨"z", some 2⟩)) := by decide +kernel
  have hwhole : (Ty.proc [.var ⟨"y", some 1⟩] (.var ⟨"z", some 2⟩)).Whole := by
    have hvar (v : Var) : (Ty.var v).Whole := .node Ty.noConfusion (List.forall_mem_nil _)
    exact .node Ty.noConfusion (List.forall_mem_cons.2 ⟨hvar _, List.forall_mem_singleton.2 (hvar _)⟩)
  have hs : boundProcedure.Sound (.var ⟨"f", some 0⟩) :=
    sound_var rfl (ht.sound hwhole) fun h ↦ absurd (ht.mem_vars h) (by decide)
  have hstands : boundProcedure.substituted (.var ⟨"f", some 0⟩) =
      .proc [.var ⟨"y", some 1⟩] (.var ⟨"z", some 2⟩) := by decide +kernel
  have hrenamed : (Ty.proc [.var ⟨"y", some 1⟩] (.var ⟨"z", some 2⟩)).detached.renamed (Equiv.swap "y" "z") =
      .proc [.var ⟨"z", none⟩] (.var ⟨"y", none⟩) := by decide +kernel
  obtain ⟨verdict, names, -, hts, -, -, hlaws, -⟩ := equivalent_laws hs.toFounded ht.founded
  rw [hstands] at hlaws
  obtain ⟨hequal, hrename⟩ := hlaws hwhole
  rw [← hrenamed]
  refine ⟨?_, hrename (Equiv.swap "y" "z") fun m _ n _ h ↦ (Equiv.swap "y" "z").injective h⟩
  rw [hts, hequal (by decide +kernel)]

end Env

end TypeAlgebra
