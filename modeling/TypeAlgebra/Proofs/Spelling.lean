import TypeAlgebra.Proofs.Parsing

namespace TypeAlgebra

namespace Step

variable {α β : Type} {context : Context} {P P' : α → Context → Prop} {Q : β → Context → Prop}

def Succeeds (step : Step α) (context : Context) (P : α → Context → Prop) : Prop :=
  ∃ a after, step.run context = (.ok a, after) ∧ P a after

theorem Succeeds.pure {a : α} (h : P a context) : Succeeds (Pure.pure a) context P :=
  ⟨a, context, rfl, h⟩

theorem Succeeds.bind {step : Step α} {f : α → Step β} (h : Succeeds step context P)
    (hf : ∀ a next, P a next → Succeeds (f a) next Q) : Succeeds (step >>= f) context Q := by
  obtain ⟨a, next, hr, hp⟩ := h
  obtain ⟨b, after, hr', hq⟩ := hf a next hp
  exact ⟨b, after, by rw [run_bind, hr]; exact hr', hq⟩

theorem Succeeds.and {step : Step α} (h : Succeeds step context P) (hy : Yields step context P') :
    Succeeds step context fun a after ↦ P a after ∧ P' a after := by
  obtain ⟨a, after, hr, hp⟩ := h
  exact ⟨a, after, hr, hp, hy a after hr⟩

end Step

namespace Tree

theorem Legible.worded {tree : Tree} (h : tree.Legible) : tree.Worded := by
  induction h with
  | atom hw => exact .atom hw
  | group _ ih => exact .group ih

end Tree

namespace Parser

variable {limit : Int64} {start : Nat} {context : Context} {tree : Tree} {trees : List Tree} {u : Ty}
  {us : List Ty}

structure Spells (limit : Int64) (tree : Tree) (u : Ty) : Prop where
  legible : tree.Legible
  unreserved : ∀ name ∈ reserved, tree.isAtom name = false
  not_empty : u.isTuple = false → tree.isAtom "Empty" = false
  parses : ∀ start context, context.limit = limit → Context.Fresh start context →
    Step.Succeeds (parseTree start tree) context fun t _ ↦ t.detached = u

theorem Spells.succeeds (h : Spells limit tree u) (hl : context.limit = limit)
    (hf : Context.Fresh start context) :
    Step.Succeeds (parseTree start tree) context fun t after ↦ t.detached = u ∧ Parses context t after :=
  (h.parses start context hl hf).and (parseTree_yields h.legible.worded context hf)

theorem parseEach_succeeds (h : List.Forall₂ (Spells limit) trees us) (hl : context.limit = limit)
    (hf : Context.Fresh start context) :
    Step.Succeeds (parseEach start trees) context fun ts after ↦
      ts.map Ty.detached = us ∧ ParsesEach context ts after := by
  induction h generalizing context with
  | nil =>
    rw [parseEach]
    exact .pure ⟨rfl, .refl context, List.forall_mem_nil _⟩
  | cons hd _ ih =>
    rw [parseEach]
    refine (hd.succeeds hl hf).bind fun t next ht ↦ ?_
    obtain ⟨ht, hp⟩ := ht
    refine (ih (hp.1.limit.trans hl) (hf.grows hp.1)).bind fun ts after hts ↦ ?_
    obtain ⟨hts, hps⟩ := hts
    refine .pure ⟨?_, ?_, ?_⟩
    · rw [List.map_cons, ht, hts]
    · exact hp.1.trans hps.1
    · exact List.forall_mem_cons.2 ⟨hps.1.legible hp.2, hps.2⟩

theorem single_succeeds {t : Ty} (h : t.isTuple = false) :
    Step.Succeeds (single tree t) context fun s after ↦ s = t ∧ after = context := by
  rw [single, if_neg (by rw [h]; exact Bool.false_ne_true)]
  exact .pure ⟨rfl, rfl⟩

theorem isTuple_of_detached {t : Ty} (h : t.detached = u) (hu : u.isTuple = false) : t.isTuple = false := by
  rwa [← h, Ty.detached, Ty.isTuple_rename] at hu

theorem parseParams_succeeds (h : List.Forall₂ (Spells limit) trees us)
    (hu : ∀ u ∈ us, u.isTuple = false) (hl : context.limit = limit)
    (hf : Context.Fresh start context) :
    Step.Succeeds (parseParams start trees) context fun ts after ↦
      ts.map Ty.detached = us ∧ context.Grows after := by
  induction h generalizing context with
  | nil =>
    rw [parseParams]
    exact .pure ⟨rfl, .refl context⟩
  | cons hd _ ih =>
    obtain ⟨hu, hus⟩ := List.forall_mem_cons.1 hu
    rw [parseParams]
    refine (hd.succeeds hl hf).bind fun t next ht ↦ ?_
    obtain ⟨ht, hp⟩ := ht
    refine (single_succeeds (isTuple_of_detached ht hu)).bind ?_
    rintro _ _ ⟨rfl, rfl⟩
    refine (ih hus (hp.1.limit.trans hl) (hf.grows hp.1)).bind fun ts after hts ↦ ?_
    obtain ⟨hts, hg⟩ := hts
    refine .pure ⟨?_, ?_⟩
    · rw [List.map_cons, ht, hts]
    · exact hp.1.trans hg

theorem isWord_keyword {kind : Kind} (h : Kind.ofKeyword? kind.keyword = some kind) :
    IsWord kind.keyword ∧ kind.keyword ≠ "Empty" ∧ kind.keyword ∉ reserved := by
  cases kind with
  | other code =>
    unfold Kind.ofKeyword? at h
    split at h <;> cases h
  | _ => exact ⟨by decide, by decide, by decide⟩

theorem isAtom_iff {text name : String} : (Tree.atom text).isAtom name = true ↔ text = name :=
  beq_iff_eq

theorem unreserved_atom {text : String} (h : text ∉ reserved) :
    ∀ name ∈ reserved, (Tree.atom text).isAtom name = false := by
  intro name hn
  by_contra hc
  exact h (isAtom_iff.1 (Bool.eq_true_of_not_eq_false hc) ▸ hn)

theorem spells_atomic {kind : Kind} (h : Kind.ofKeyword? kind.keyword = some kind) :
    Spells limit (.atom kind.keyword) (.atomic kind) := by
  obtain ⟨hw, he, hr⟩ := isWord_keyword h
  refine ⟨.atom hw, unreserved_atom hr, fun _ ↦ ?_, fun start context _ _ ↦ ?_⟩
  · exact Bool.eq_false_of_not_eq_true fun hc ↦ he (isAtom_iff.1 hc)
  · rw [parseTree, parseAtom, h]
    exact .pure rfl

theorem spells_empty : Spells limit (.atom "Empty") .empty := by
  refine ⟨.atom (by decide), unreserved_atom (by decide), nofun, fun start context _ _ ↦ ?_⟩
  rw [parseTree]
  exact .pure rfl

theorem spells_var {v : Var} (hn : IsName v.name) (hv : v.cell = none) :
    Spells limit (.atom v.name) (.var v) := by
  refine ⟨.atom hn.word, unreserved_atom hn.reserved, fun _ ↦ ?_, fun start context _ _ ↦ ?_⟩
  · exact Bool.eq_false_of_not_eq_true fun hc ↦ hn.empty (isAtom_iff.1 hc)
  · have hd (i : Nat) : (Ty.var ⟨v.name, some i⟩).detached = .var v := by
      cases v
      cases hv
      rfl
    rw [parseTree, parseAtom, hn.keyword]
    simp only [if_neg hn.empty, if_neg hn.reserved, if_pos hn.starts]
    rw [Step.Succeeds]
    rw [run_parseVar]
    split
    · next w hfind =>
      obtain ⟨i, cell, rfl, -⟩ := Cells.findFrom?_eq_some hfind
      exact ⟨_, _, rfl, hd i⟩
    · exact ⟨_, _, rfl, hd _⟩

theorem parseTree_union {items parts : List Tree} (h : Clause.ofItems items = .ok (.union parts)) :
    parseTree start (.group items) = parseEach start parts >>= Step.join := by
  rw [parseTree]
  split <;> simp_all

theorem parseTree_inter {items parts : List Tree} (h : Clause.ofItems items = .ok (.inter parts)) :
    parseTree start (.group items) = parseEach start parts >>= Step.meet := by
  rw [parseTree]
  split <;> simp_all

theorem parseTree_pred {items : List Tree} {inner : Tree} (h : Clause.ofItems items = .ok (.pred inner)) :
    parseTree start (.group items) = parseTree start inner >>= fun t ↦ pure (.pred t) := by
  rw [parseTree]
  split <;> simp_all

theorem parseTree_proc {items params : List Tree} {result : Tree}
    (h : Clause.ofItems items = .ok (.proc params result)) :
    parseTree start (.group items) = (do
      let params ← parseParams start params
      let result ← single result (← parseTree start result)
      return .proc params result) := by
  rw [parseTree]
  split <;> simp_all

/-- A group is not an atom, so only its reading and its parsing matter. -/
theorem spells_group {items : List Tree} (hi : ∀ tree ∈ items, tree.Legible)
    (h : ∀ start context, context.limit = limit → Context.Fresh start context →
      Step.Succeeds (parseTree start (.group items)) context fun t _ ↦ t.detached = u) :
    Spells limit (.group items) u :=
  ⟨.group hi, fun _ _ ↦ rfl, fun _ ↦ rfl, h⟩

theorem Spells.forall_mem {P : Tree → Prop} (h : List.Forall₂ (Spells limit) trees us)
    (hp : ∀ tree, ∀ u ∈ us, Spells limit tree u → P tree) : ∀ tree ∈ trees, P tree := by
  induction h with
  | nil => exact nofun
  | cons hd _ ih =>
    obtain ⟨hp₁, hp₂⟩ := forall_and.1 fun tree ↦ List.forall_mem_cons.1 (hp tree)
    exact List.forall_mem_cons.2 ⟨hp₁ _ hd, ih hp₂⟩

/-- The parts of a union or an intersection are parsed one after the other and then put together. -/
theorem spells_combined {keyword : String} {combine : List Ty → Step Ty} {combined : Env → List Ty → Ty}
    (h : List.Forall₂ (Spells limit) trees us) (hk : IsWord keyword)
    (hparse : ∀ start, parseTree start (.group (.atom keyword :: trees)) = parseEach start trees >>= combine)
    (hrun : ∀ {context : Context} {ts : List Ty}, (∀ t ∈ ts, context.env.Free t) →
      ∃ warnings, (combine ts).run context = (.ok (combined context.env ts), { context with warnings }))
    (hdetached : ∀ {env : Env} {ts : List Ty}, (∀ t ∈ ts, env.Free t) →
      (combined env ts).detached = combined (.vacant env.limit) (ts.map Ty.detached))
    (hu : combined (.vacant limit) us = u) : Spells limit (.group (.atom keyword :: trees)) u := by
  refine spells_group ?_ fun start context hl hf ↦ ?_
  · exact List.forall_mem_cons.2 ⟨.atom hk, Spells.forall_mem h fun tree u _ hs ↦ hs.legible⟩
  · rw [hparse]
    refine (parseEach_succeeds h hl hf).bind fun ts next hparsed ↦ ?_
    obtain ⟨hts, hg, hlegible⟩ := hparsed
    have hfree : ∀ t ∈ ts, next.env.Free t := fun t ht ↦ (hlegible t ht).free
    have hlimit : next.env.limit = limit := hg.limit.trans hl
    have hd : (combined next.env ts).detached = u := by rw [hdetached hfree, hts, hlimit, hu]
    obtain ⟨warnings, hr⟩ := hrun hfree
    exact ⟨_, _, hr, hd⟩

theorem spells_join (h : List.Forall₂ (Spells limit) trees us) (hne : trees ≠ [])
    (hu : (Env.vacant limit).joined us = u) : Spells limit (.group (.atom "union" :: trees)) u := by
  have hc : Clause.ofItems (.atom "union" :: trees) = .ok (.union trees) := by
    cases trees with
    | nil => exact absurd rfl hne
    | cons => rfl
  exact spells_combined h (by decide) (fun _ ↦ parseTree_union hc) run_join Env.joined_detached hu

theorem spells_meet (h : List.Forall₂ (Spells limit) trees us) (hne : trees ≠ [])
    (hu : (Env.vacant limit).met us = u) : Spells limit (.group (.atom "inter" :: trees)) u := by
  have hc : Clause.ofItems (.atom "inter" :: trees) = .ok (.inter trees) := by
    cases trees with
    | nil => exact absurd rfl hne
    | cons => rfl
  exact spells_combined h (by decide) (fun _ ↦ parseTree_inter hc) run_meet Env.met_detached hu

theorem spells_pred (h : Spells limit tree u) :
    Spells limit (.group [.atom "is?", tree]) (.pred u) := by
  refine spells_group ?_ fun start context hl hf ↦ ?_
  · exact List.forall_mem_cons.2 ⟨.atom (by decide), List.forall_mem_singleton.2 h.legible⟩
  · rw [parseTree_pred rfl]
    exact (h.parses start context hl hf).bind fun t next ht ↦ .pure (congrArg Ty.pred ht)

def starred (trees : List Tree) : List Tree :=
  Form.tuple (trees.map ([·]))

theorem starred_singleton (tree : Tree) : starred [tree] = [tree] := rfl

theorem starred_cons_cons (first second : Tree) (trees : List Tree) :
    starred (first :: second :: trees) = first :: .atom "*" :: starred (second :: trees) := by
  simp [starred, Form.tuple, List.intercalate_cons_cons]

/-- A property of the word `Empty`, of stars and of the trees between the stars. -/
theorem forall_starred {P : Tree → Prop} (he : P (.atom "Empty")) (hs : P (.atom "*"))
    (h : ∀ tree ∈ trees, P tree) : ∀ tree ∈ starred trees, P tree := by
  induction trees with
  | nil => exact List.forall_mem_singleton.2 he
  | cons first trees ih =>
    obtain ⟨hd, htl⟩ := List.forall_mem_cons.1 h
    cases trees with
    | nil => exact List.forall_mem_singleton.2 hd
    | cons second trees =>
      rw [starred_cons_cons]
      exact List.forall_mem_cons.2 ⟨hd, List.forall_mem_cons.2 ⟨hs, ih htl⟩⟩

theorem betweenStars_starred (hne : trees ≠ []) (h : ∀ tree ∈ trees, tree.isAtom "*" = false)
    (params : List Tree) (position : Nat) :
    Clause.betweenStars params position (starred trees) = .ok trees := by
  induction trees generalizing position with
  | nil => exact absurd rfl hne
  | cons first trees ih =>
    obtain ⟨hd, htl⟩ := List.forall_mem_cons.1 h
    cases trees with
    | nil =>
      rw [starred_singleton, Clause.betweenStars, hd]
      rfl
    | cons second trees =>
      rw [starred_cons_cons, Clause.betweenStars, hd]
      change Except.map (first :: ·)
        (Clause.betweenStars params (position + 2) (starred (second :: trees))) = _
      rw [ih nofun htl]
      rfl

theorem paramTypes_starred (h : ∀ tree ∈ trees, tree.isAtom "*" = false ∧ tree.isAtom "Empty" = false) :
    Clause.paramTypes (starred trees) = .ok trees := by
  cases trees with
  | nil => rfl
  | cons first trees =>
    have hempty : starred (first :: trees) ≠ [.atom "Empty"] := by
      intro he
      have hf := (h first List.mem_cons_self).2
      cases trees with
      | nil =>
        cases he
        cases hf
      | cons second trees =>
        rw [starred_cons_cons] at he
        cases he
    unfold Clause.paramTypes
    split
    · next he => exact absurd he hempty
    · exact betweenStars_starred (List.cons_ne_nil first trees) (fun tree ht ↦ (h tree ht).1) _ 0

theorem ofItems_eq_ofProc {first : Tree} (h : ∀ name ∈ ["union", "inter", "is?"], first.isAtom name = false) :
    Clause.ofItems (first :: trees) = Clause.ofProc (first :: trees) := by
  have hne {name : String} (hn : name ∈ ["union", "inter", "is?"]) : first ≠ .atom name := by
    rintro rfl
    cases (beq_self_eq_true name).symm.trans (h name hn)
  unfold Clause.ofItems
  split
  · next he => cases he
  · next he => exact absurd (List.cons.inj he).1 (hne (by decide))
  · next he => exact absurd (List.cons.inj he).1 (hne (by decide))
  · next he => exact absurd (List.cons.inj he).1 (hne (by decide))
  · next he => exact absurd (List.cons.inj he).1 (hne (by decide))
  · next he => exact absurd (List.cons.inj he).1 (hne (by decide))
  · next he => exact absurd (List.cons.inj he).1 (hne (by decide))
  · rfl

theorem ofProc_arrow {params : List Tree} {result : Tree} (hne : params ≠ [])
    (hp : ∀ tree ∈ params, tree.isAtom "->" = false) (hr : result.isAtom "->" = false) :
    Clause.ofProc (params ++ [.atom "->", result]) = (Clause.paramTypes params).map (.proc · result) := by
  have hall : ∀ tree ∈ params, (!tree.isAtom "->") = true := fun tree ht ↦ by rw [hp tree ht]; rfl
  have htake : (params ++ [.atom "->", result]).takeWhile (!·.isAtom "->") = params := by
    rw [List.takeWhile_append_of_pos hall, List.takeWhile_cons_of_neg (by decide), List.append_nil]
  have hdrop : (params ++ [.atom "->", result]).dropWhile (!·.isAtom "->") = [.atom "->", result] := by
    rw [List.dropWhile_append_of_pos hall, List.dropWhile_cons_of_neg (by decide)]
  have hflaw : Clause.arrowFlaw? params [.atom "->", result] = none := by
    simp [Clause.arrowFlaw?, hne, hr]
  rw [Clause.ofProc, htake, hdrop, hflaw]
  rfl

theorem exists_starred {P : Tree → Prop} (he : P (.atom "Empty")) (h : ∀ tree ∈ trees, P tree) :
    ∃ first rest, starred trees = first :: rest ∧ P first := by
  match trees with
  | [] => exact ⟨_, _, rfl, he⟩
  | [first] => exact ⟨_, _, rfl, h first List.mem_cons_self⟩
  | first :: second :: trees => exact ⟨_, _, starred_cons_cons first second trees, h first List.mem_cons_self⟩

theorem ofItems_arrow {result : Tree}
    (h : ∀ tree ∈ trees, (∀ name ∈ reserved, tree.isAtom name = false) ∧ tree.isAtom "Empty" = false)
    (hr : result.isAtom "->" = false) :
    Clause.ofItems (starred trees ++ [.atom "->", result]) = .ok (.proc trees result) := by
  obtain ⟨first, rest, hs, hfirst⟩ := exists_starred (unreserved_atom (by decide)) fun tree ht ↦ (h tree ht).1
  have harrow : ∀ tree ∈ starred trees, tree.isAtom "->" = false :=
    forall_starred rfl rfl fun tree ht ↦ (h tree ht).1 "->" (by decide)
  have hparams : Clause.paramTypes (starred trees) = .ok trees :=
    paramTypes_starred fun tree ht ↦ ⟨(h tree ht).1 "*" (by decide), (h tree ht).2⟩
  rw [hs] at harrow hparams ⊢
  have hproc : ∀ name ∈ ["union", "inter", "is?"], first.isAtom name = false :=
    fun name hn ↦ hfirst name (List.mem_of_mem_drop (i := 2) hn)
  rw [List.cons_append, ofItems_eq_ofProc hproc, ← List.cons_append,
    ofProc_arrow (List.cons_ne_nil first rest) harrow hr, hparams]
  rfl

theorem spells_proc {result : Tree} {r : Ty} (h : List.Forall₂ (Spells limit) trees us)
    (hr : Spells limit result r) (htup : ∀ u ∈ us, u.isTuple = false) (hrt : r.isTuple = false) :
    Spells limit (.group (starred trees ++ [.atom "->", result])) (.proc us r) := by
  have hc : Clause.ofItems (starred trees ++ [.atom "->", result]) = .ok (.proc trees result) :=
    ofItems_arrow (Spells.forall_mem h fun tree u hu hs ↦ ⟨hs.unreserved, hs.not_empty (htup u hu)⟩)
      (hr.unreserved "->" (by decide))
  refine spells_group ?_ fun start context hl hf ↦ ?_
  · refine List.forall_mem_append.2 ⟨?_, List.forall_mem_cons.2 ⟨?_, List.forall_mem_singleton.2 hr.legible⟩⟩
    · exact forall_starred (.atom (by decide)) (.atom (by decide))
        (Spells.forall_mem h fun tree u _ hs ↦ hs.legible)
    · exact .atom (by decide)
  · rw [parseTree_proc hc]
    refine (parseParams_succeeds h htup hl hf).bind fun ts next ⟨hts, hg⟩ ↦ ?_
    refine (hr.parses start next (hg.limit.trans hl) (hf.grows hg)).bind fun t after ht ↦ ?_
    refine (single_succeeds (isTuple_of_detached ht hrt)).bind ?_
    rintro _ _ ⟨rfl, rfl⟩
    refine .pure ?_
    change Ty.proc _ _ = _
    rw [Ty.renameEach_eq]
    exact congrArg₂ Ty.proc hts ht

end Parser

end TypeAlgebra
