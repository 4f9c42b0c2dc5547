import TypeAlgebra.Proofs.Equivariance
import TypeAlgebra.Proofs.Evaluation

namespace TypeAlgebra

def Var.renamed (r : String → String) (v : Var) : Var :=
  { v with name := r v.name }

namespace Ty

variable {r : String → String} {s t u : Ty} {P Q : String × String → Prop}

/-- The type with other names for its variables, and all its parts where they are. -/
def renamed (r : String → String) (t : Ty) : Ty :=
  t.rename (Var.renamed r)

def Finds (P : String × String → Prop) (x : Matching) : Prop :=
  ∃ pairs, x.run = .ok (some pairs) ∧ ∀ p ∈ pairs, P p

theorem Finds.imp {x : Matching} (h : Finds P x) (hi : ∀ p, P p → Q p) : Finds Q x := by
  obtain ⟨pairs, hx, hp⟩ := h
  exact ⟨pairs, hx, fun p hm ↦ hi p (hp p hm)⟩

theorem run_bind_some {α β : Type} {x : OptionT (Except Fault) α} {a : α} (h : x.run = .ok (some a))
    (f : α → OptionT (Except Fault) β) : (x >>= f).run = (f a).run := by
  rw [OptionT.run_bind, h]
  rfl

theorem finds_matchEach {pair : Ty → Ty → Matching} {ts : List Ty} (g : Ty → Ty)
    (h : ∀ t ∈ ts, Finds P (pair t (g t))) : Finds P (matchEach pair ts (ts.map g)) := by
  have each : ∃ found, ((ts.zip (ts.map g)).mapM fun (s, t) ↦ pair s t).run = .ok (some found) ∧
      ∀ pairs ∈ found, ∀ p ∈ pairs, P p := by
    induction ts with
    | nil => exact ⟨[], rfl, List.forall_mem_nil _⟩
    | cons t ts ih =>
      obtain ⟨⟨pairs, hp, hpairs⟩, hts⟩ := List.forall_mem_cons.1 h
      obtain ⟨found, hf, hfound⟩ := ih hts
      refine ⟨pairs :: found, ?_, List.forall_mem_cons.2 ⟨hpairs, hfound⟩⟩
      rw [List.map_cons, List.zip_cons_cons, List.mapM_cons, run_bind_some hp, run_bind_some hf]
      rfl
  obtain ⟨found, hf, hfound⟩ := each
  refine ⟨found.flatten, ?_, fun p hp ↦ ?_⟩
  · rw [matchEach, if_pos (List.length_map g).symm, run_bind_some hf]
    rfl
  · obtain ⟨pairs, hm, hp⟩ := List.mem_flatten.1 hp
    exact hfound pairs hm p hp

end Ty

namespace Env

variable {limit : Int64} {r : String → String} {s t u : Ty} {names : List String}

/-- A renaming that takes the names to different ones keeps their number. -/
theorem distinctCount_map (h : ∀ m ∈ names, ∀ n ∈ names, r m = r n → m = n) :
    distinctCount (names.map r) = distinctCount names := by
  unfold distinctCount
  induction hn : names.length using Nat.strongRecOn generalizing names with
  | ind n ih =>
    cases names with
    | nil => rfl
    | cons m names =>
      have hbeq : ∀ k ∈ names, (!(r k == r m)) = (!(k == m)) := by
        intro k hk
        refine congrArg not (Bool.eq_iff_iff.2 ?_)
        rw [beq_iff_eq, beq_iff_eq]
        exact ⟨h k (List.mem_cons_of_mem m hk) m List.mem_cons_self, congrArg r⟩
      have hfilter : (names.map r).filter (!· == r m) = (names.filter (!· == m)).map r := by
        rw [List.filter_map]
        exact congrArg (List.map r) (List.filter_congr hbeq)
      have hsub : ∀ k ∈ names.filter (!· == m), k ∈ m :: names :=
        fun k hk ↦ List.mem_cons_of_mem m (List.mem_filter.1 hk).1
      have hlen : (names.filter (!· == m)).length < n :=
        hn ▸ Nat.lt_succ_of_le (List.length_filter_le _ names)
      rw [List.map_cons, List.eraseDups_cons, List.eraseDups_cons, List.length_cons, List.length_cons, hfilter,
        ih _ hlen (fun k hk l hl ↦ h k (hsub k hk) l (hsub l hl)) rfl]

/-- Types over names alone have no bound variables. -/
theorem free_of_named {env : Env} (h : ∀ v ∈ t.vars, v.cell = none) : env.Free t := by
  intro v hv
  rw [Cells.contents, Cells.cellOf, h v hv]
  rfl

theorem named_renamed (h : ∀ v ∈ t.vars, v.cell = none) : ∀ v ∈ (t.renamed r).vars, v.cell = none := by
  rw [Ty.renamed, Ty.vars_rename]
  exact List.forall_mem_map.2 h

/-- A type and its renaming are matched place by place. -/
theorem finds_matchTo {d : Nat} (hw : t.Whole) (hn : ∀ v ∈ t.vars, v.cell = none) (hd : t.size < d) :
    Ty.Finds (fun p ↦ ∃ v ∈ t.vars, p = (v.name, r v.name)) ((vacant limit).matchTo d t (t.renamed r)) := by
  induction d generalizing t with
  | zero => exact absurd hd (Nat.not_lt_zero _)
  | succ d ih =>
    have hchild : ∀ s ∈ t.children, Ty.Finds (fun p ↦ ∃ v ∈ t.vars, p = (v.name, r v.name))
        ((vacant limit).matchTo d s (s.renamed r)) := by
      intro s hs
      have hsize := Ty.size_lt_of_child hs
      have hsub {v : Var} (hv : v ∈ s.vars) : v ∈ t.vars := Ty.mem_vars_of_child hs hv
      refine (ih (hw.child hs) (fun v hv ↦ hn v (hsub hv)) (by omega)).imp fun p hp ↦ ?_
      obtain ⟨v, hv, rfl⟩ := hp
      exact ⟨v, hsub hv, rfl⟩
    have hmatch : (vacant limit).matchTo (d + 1) t (t.renamed r) =
        Ty.matchBy ((vacant limit).matchTo d) t (t.renamed r) := by
      rw [matchTo, (free_of_named hn).deref, (free_of_named (named_renamed hn)).deref]
      rfl
    have heach : ∀ ts ⊆ t.children, Ty.Finds (fun p ↦ ∃ v ∈ t.vars, p = (v.name, r v.name))
        (Ty.matchEach ((vacant limit).matchTo d) ts (Ty.renameEach (Var.renamed r) ts)) := by
      intro ts hts
      rw [Ty.renameEach_eq]
      exact Ty.finds_matchEach (Ty.renamed r) fun s hs ↦ hchild s (hts hs)
    rw [hmatch]
    cases t with
    | absent => exact absurd rfl hw.ne_absent
    | atomic kind =>
      change Ty.Finds _ (if kind = kind then pure [] else failure)
      rw [if_pos rfl]
      exact ⟨[], rfl, List.forall_mem_nil _⟩
    | var v =>
      refine ⟨if v.name = r v.name then [] else [(v.name, r v.name)], rfl, fun p hp ↦ ?_⟩
      split at hp
      · cases hp
      · exact ⟨v, List.mem_singleton_self v, List.mem_singleton.1 hp⟩
    | proc params result =>
      have h := heach (params ++ [result]) (List.Subset.refl _)
      have hlen : params.length = (Ty.renameEach (Var.renamed r) params).length := by
        rw [Ty.renameEach_eq, List.length_map]
      rw [Ty.renameEach_eq, List.map_append, ← Ty.renameEach_eq] at h
      change Ty.Finds _ (if params.length = (Ty.renameEach (Var.renamed r) params).length then _ else failure)
      rw [if_pos hlen]
      exact h
    | empty => exact ⟨[], rfl, List.forall_mem_nil _⟩
    | tuple elems => exact heach elems (List.Subset.refl _)
    | union parts => exact heach parts (List.Subset.refl _)
    | inter parts => exact heach parts (List.Subset.refl _)
    | pred inner => exact hchild inner List.mem_cons_self

theorem size_lt_depth {env : Env} {ts : List Ty} (h : t ∈ ts) : t.size < env.depth ts := by
  have hs := Ty.size_le_sizeEach h
  have hd := le_depth env ts (n := t.size + 1) (by omega)
  nlinarith

/-- The test finds a renaming that leaves all parts at their places. -/
theorem equivalent_in_place {env : Env} (hs : env.Free s) (ht : env.Free t) (hw : s.Whole)
    (hr : ∀ v ∈ s.vars, ∀ w ∈ s.vars, r v.name = r w.name → v.name = w.name)
    (h : t.detached = s.detached.renamed r) : env.equivalent s t = .ok true := by
  obtain ⟨pairs, hpairs, hp⟩ : Ty.Finds (fun p ↦ ∃ v ∈ s.detached.vars, p = (v.name, r v.name))
      ((vacant env.limit).matchTo ((vacant env.limit).depth [s.detached, s.detached.renamed r]) s.detached
        (s.detached.renamed r)) :=
    finds_matchTo (Ty.whole_detached.2 hw) (Ty.named_detached s) (size_lt_depth List.mem_cons_self)
  have name_of {p : String × String} (hm : p ∈ pairs) : ∃ v ∈ s.vars, p = (v.name, r v.name) := by
    obtain ⟨v, hv, he⟩ := hp p hm
    rw [Ty.detached, Ty.vars_rename] at hv
    obtain ⟨w, hw, rfl⟩ := List.mem_map.1 hv
    exact ⟨w, hw, he⟩
  have hsnd : pairs.map Prod.snd = (pairs.map Prod.fst).map r := by
    rw [List.map_map]
    refine List.map_congr_left fun p hm ↦ ?_
    obtain ⟨v, -, rfl⟩ := name_of hm
    rfl
  have hinj : ∀ m ∈ pairs.map Prod.fst, ∀ n ∈ pairs.map Prod.fst, r m = r n → m = n := by
    refine List.forall_mem_map.2 fun p hm ↦ List.forall_mem_map.2 fun q hm' ↦ ?_
    obtain ⟨v, hv, rfl⟩ := name_of hm
    obtain ⟨w, hw, rfl⟩ := name_of hm'
    exact hr v hv w hw
  rw [equivalent_detached hs ht, h, equivalent, hpairs]
  change Except.ok (distinctCount pairs.unzip.1 == distinctCount pairs.unzip.2) = _
  rw [List.unzip_fst, List.unzip_snd, hsnd, distinctCount_map hinj, beq_self_eq_true]

end Env

namespace Ty

variable {r : String → String} {t : Ty} {v : Var}

theorem Readable.isName (h : t.Readable) (hv : v ∈ t.vars) : IsName v.name := by
  induction t using induction_children with
  | step t ih =>
    rcases mem_vars_iff.1 hv with rfl | ⟨s, hs, hvs⟩
    · exact h.writable
    · exact ih s hs (h.child hs) hvs

theorem renames_renamed (h : t.Readable) : Renames (RenamedTo r) t (t.renamed r) := by
  induction t using induction_children with
  | step t ih =>
    have each {ts : List Ty} (hts : ts ⊆ t.children) :
        List.Forall₂ (Renames (RenamedTo r)) ts (ts.map (renamed r)) := by
      rw [List.forall₂_map_right_iff]
      exact List.forall₂_same.2 fun s hs ↦ ih s (hts hs) (h.child (hts hs))
    cases t with
    | absent => exact h.writable.elim
    | atomic kind => exact .atomic kind
    | var v => exact .var ⟨h.writable, rfl⟩
    | proc params result =>
      rw [renamed, rename, renameEach_eq]
      exact .proc (each (List.subset_append_left _ _)) (ih result result_child (h.child result_child))
    | empty => exact .empty
    | tuple elems => exact h.writable.elim
    | union parts =>
      rw [renamed, rename_union]
      exact renames_union.2 (.of_forall₂ (each (List.Subset.refl _)))
    | inter parts =>
      rw [renamed, rename_inter]
      exact renames_inter.2 (.of_forall₂ (each (List.Subset.refl _)))
    | pred inner => exact .pred (ih inner inner_child (h.child inner_child))

theorem readable_renamed (hr : IsRenaming r) (h : t.Readable) : (t.renamed r).Readable := by
  induction t using induction_children with
  | step t ih =>
    have hc : (t.renamed r).children = t.children.map (renamed r) := children_rename _ t
    refine .node ?_ ?_
    · cases t with
      | absent => exact h.writable
      | atomic kind => exact h.writable
      | var v => exact hr.name h.writable
      | proc params result =>
        have htup : ∀ s ∈ ((proc params result).renamed r).children, s.isTuple = false := by
          rw [hc]
          refine List.forall_mem_map.2 fun s hs ↦ ?_
          rw [renamed, isTuple_rename]
          exact h.writable s hs
        exact htup
      | tuple elems => exact h.writable
      | _ => trivial
    · rw [hc]
      exact List.forall_mem_map.2 fun s hs ↦ ih s hs (h.child hs)

end Ty

namespace Env

variable {limit : Int64} {r : String → String} {t u : Ty}

theorem corresponds_renamed (hr : IsRenaming r) (ht : Spelled limit t)
    (hc : (vacant limit).Canonical (t.renamed r)) : Corresponds limit (RenamedTo r) t (t.renamed r) where
  left := ht
  right := ⟨⟨named_renamed ht.normal.named, (Ty.whole_rename _).2 ht.normal.whole, hc⟩,
    Ty.readable_renamed hr ht.readable⟩
  renames := Ty.renames_renamed ht.readable

/-- Without a limit on distribution, a renaming leaves the parts where they are if they are in order there. -/
theorem Corresponds.in_place_iff (hl : limit ≤ 0) (hr : IsRenaming r)
    (h : Corresponds limit (RenamedTo r) t u) :
    u = t.renamed r ↔ (vacant limit).Canonical (t.renamed r) := by
  constructor
  · rintro rfl
    exact h.right.normal.canonical
  · intro hc
    exact h.right_unique hl hr.biUnique.2 (corresponds_renamed hr h.left hc)

end Env

namespace Parser

variable {context after : Context} {text : String} {tree : Tree} {a : Ty} {r : String → String}

/--
The test for equivalence finds a renaming of the variables of a tree if the parts of the parsed type are left at
their places. Without a limit on distribution this is the case if they are in order there.
-/
theorem equivalent_renamed (hread : Tree.read text = .ok tree) (hr : IsRenaming r)
    (hparse : (Step.parseTree tree).run context = (.ok a, after)) :
    (∀ a' last, (Step.parseTree (tree.rename r)).run after = (.ok a', last) →
      a'.detached = a.detached.renamed r → last.env.equivalent a a' = .ok true) ∧
    (context.limit ≤ 0 → ∃ a' last, (Step.parseTree (tree.rename r)).run after = (.ok a', last) ∧
      (a'.detached = a.detached.renamed r ↔ (Env.vacant context.limit).Canonical (a.detached.renamed r))) := by
  have hw := Tree.read_worded hread
  obtain ⟨hg, hlegible⟩ := parseTree_yields hw context (fresh_length context) a after hparse
  obtain ⟨u, hu, hfree, rfl⟩ := (Step.parseTree_realizes tree context).of_run_ok hparse
  refine ⟨fun a' last hparse' hplace ↦ ?_, fun hl ↦ ?_⟩
  · obtain ⟨hg', hlegible'⟩ :=
      parseTree_yields (Tree.worded_rename hr hw) after (fresh_length after) a' last hparse'
    have hname {v : Var} (hv : v ∈ a.vars) : IsName v.detached.name := by
      refine hlegible.spelled.readable.isName ?_
      rw [Ty.detached, Ty.vars_rename]
      exact List.mem_map_of_mem hv
    exact Env.equivalent_in_place (hg'.free hlegible.free) hlegible'.free hlegible.settled.whole
      (fun v hv w hw ↦ hr.injective (hname hv) (hname hw)) hplace
  · rcases equivariant hl hr hw with ⟨u, v, hu', hv, hc⟩ | ⟨e, e', he, he'⟩
    · obtain rfl : a.detached = u := Except.ok.inj (hu.symm.trans hu')
      have hd := Step.parseTree_realizes (tree.rename r) after
      rw [hg.limit, hv] at hd
      obtain ⟨a', last, hparse', -, -, rfl⟩ := hd.exists_of_ok
      exact ⟨a', last, hparse', hc.in_place_iff hl hr⟩
    · cases hu.symm.trans he

theorem run_eq {α : Type} {step : Step α} {a : α} (h : (step.run context).1 = .ok a)
    (h' : (step.run context).2 = after) : step.run context = (.ok a, after) :=
  Prod.ext h h'

theorem equivalent_renamed_in_order :
    ∃ a after a' last,
      (Step.parseTree (.ofWords ["union", "U", "T", "number"])).run {} = (.ok a, after) ∧
      (Step.parseTree (Tree.rename (Equiv.swap "T" "S") (.ofWords ["union", "U", "T", "number"]))).run after =
        (.ok a', last) ∧
      last.env.equivalent a a' = .ok true ∧
      (Env.vacant 0).Canonical (a.detached.renamed (Equiv.swap "T" "S")) := by
  have hr : IsRenaming (Equiv.swap "T" "S") := isRenaming_swap (by decide) (by decide)
  have hparse : (Step.parseTree (.ofWords ["union", "U", "T", "number"])).run {} =
      (.ok (.union [.var ⟨"T", some 1⟩, .var ⟨"U", some 0⟩, .atomic .number]),
        { cells := [⟨"U", none⟩, ⟨"T", none⟩] }) :=
    run_eq (by decide +kernel) (by decide +kernel)
  have htype' :
      ((Step.parseTree (Tree.rename (Equiv.swap "T" "S") (.ofWords ["union", "U", "T", "number"]))).run
        { cells := [⟨"U", none⟩, ⟨"T", none⟩] }).1 =
      .ok (.union [.var ⟨"S", some 3⟩, .var ⟨"U", some 2⟩, .atomic .number]) := by decide +kernel
  obtain ⟨found, place⟩ := equivalent_renamed (Tree.read_print (Tree.legible_ofWords (by decide))) hr hparse
  obtain ⟨a', last, hparse', hplace⟩ := place (by decide)
  obtain rfl := Except.ok.inj ((congrArg Prod.fst hparse').symm.trans htype')
  exact ⟨_, _, _, last, hparse, hparse', found _ last hparse' (by decide +kernel), hplace.1 (by decide +kernel)⟩

-- A variable whose name is moved behind `number` changes places with it.
theorem equivalent_misses_renaming :
    IsRenaming (Equiv.swap "T" "z") ∧ Tree.read "(union T number)" = .ok (.ofWords ["union", "T", "number"]) ∧
    ∃ a after a' last,
      (Step.parseTree (.ofWords ["union", "T", "number"])).run {} = (.ok a, after) ∧
      (Step.parseTree (Tree.rename (Equiv.swap "T" "z") (.ofWords ["union", "T", "number"]))).run after =
        (.ok a', last) ∧ last.env.equivalent a a' = .ok false := by
  have hprint : (Tree.ofWords ["union", "T", "number"]).print = "(union T number)" := by decide +kernel
  refine ⟨isRenaming_swap (by decide) (by decide), ?_, ?_⟩
  · rw [← hprint]
    exact Tree.read_print (Tree.legible_ofWords (by decide))
  · refine ⟨.union [.var ⟨"T", some 0⟩, .atomic .number], { cells := [⟨"T", none⟩] },
      .union [.atomic .number, .var ⟨"z", some 1⟩], { cells := [⟨"T", none⟩, ⟨"z", none⟩] }, ?_, ?_, ?_⟩
    · exact run_eq (by decide +kernel) (by decide +kernel)
    · exact run_eq (by decide +kernel) (by decide +kernel)
    · decide +kernel

end Parser

end TypeAlgebra
