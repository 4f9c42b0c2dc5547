import TypeAlgebra.Proofs.Denotation
import TypeAlgebra.Proofs.Grammar
import TypeAlgebra.Proofs.Scope

namespace TypeAlgebra

def Token.name? : Token → Option String
  | .atom text => if IsName text then some text else none
  | _ => none

theorem not_isName_of_word {word : String} (h : word = "Empty" ∨ word ∈ Parser.reserved) : ¬IsName word :=
  fun hn ↦ h.elim hn.empty hn.reserved

namespace Tree

mutual

/-- The names of the variables in a tree, once for each occurrence, from left to right. -/
def names : Tree → List String
  | atom text => if IsName text then [text] else []
  | literal _ => []
  | group items => namesEach items

def namesEach : List Tree → List String
  | [] => []
  | tree :: trees => tree.names ++ namesEach trees

end

variable {tree : Tree} {trees : List Tree} {word : String}

theorem namesEach_append (left right : List Tree) :
    namesEach (left ++ right) = namesEach left ++ namesEach right := by
  induction left with
  | nil => rfl
  | cons tree trees ih => rw [List.cons_append, namesEach, namesEach, ih, List.append_assoc]

theorem namesEach_singleton (tree : Tree) : namesEach [tree] = tree.names := by
  rw [namesEach, namesEach, List.append_nil]

theorem names_of_isAtom (h : tree.isAtom word = true) (hw : word = "Empty" ∨ word ∈ Parser.reserved) :
    tree.names = [] := by
  cases tree with
  | atom text =>
    obtain rfl : text = word := beq_iff_eq.1 h
    rw [names, if_neg (not_isName_of_word hw)]
  | literal text => cases h
  | group items => cases h

theorem Renders.names {tokens : List Token} (h : Renders trees tokens) :
    tokens.filterMap Token.name? = namesEach trees := by
  induction h with
  | nil => rfl
  | @atom text trees tokens _ ih =>
    rw [List.filterMap_cons, ih, namesEach, Tree.names, Token.name?]
    split_ifs <;> rfl
  | literal _ ih => exact ih
  | group bracket _ _ ih₁ ih₂ =>
    change List.filterMap Token.name? (_ ++ _) = _
    rw [List.filterMap_append, ih₁, namesEach, Tree.names]
    exact congrArg _ ih₂

end Tree

namespace Clause

open TypeAlgebra.Tree (namesEach namesEach_append namesEach_singleton names_of_isAtom)

variable {params items trees types : List Tree} {position : Nat} {clause : Clause}

theorem namesEach_betweenStars (h : betweenStars params position trees = .ok types) :
    namesEach types = namesEach trees := by
  fun_induction betweenStars params position trees generalizing types with
  | case1 => cases h
  | case2 => cases h
  | case3 => cases h; rfl
  | case4 position tree _ star rest hstar ih =>
    cases hr : betweenStars params (position + 2) rest with
    | error => rw [hr] at h; cases h
    | ok found =>
      rw [hr] at h
      cases h
      rw [namesEach, namesEach, namesEach, ih hr, names_of_isAtom hstar (by decide), List.nil_append]
  | case5 => cases h

theorem namesEach_paramTypes (h : paramTypes params = .ok types) : namesEach types = namesEach params := by
  unfold paramTypes at h
  split at h
  · cases h
    have hempty : (Tree.atom "Empty").isAtom "Empty" = true := rfl
    rw [namesEach_singleton, names_of_isAtom hempty (.inl rfl), namesEach]
  · exact namesEach_betweenStars h

theorem names_resultTree (trees : List Tree) : (resultTree trees).names = namesEach trees := by
  unfold resultTree
  split
  · rw [namesEach_singleton]
  · rw [Tree.names]

theorem namesEach_ofProc (h : ofProc items = .ok clause) : namesEach clause.trees = namesEach items := by
  have hs := congrArg namesEach
    (List.takeWhile_append_dropWhile (p := (!Tree.isAtom "->" ·)) (l := items))
  rw [namesEach_append] at hs
  simp only [ofProc] at h
  split at h
  · cases h
  · next hf =>
    cases ht : paramTypes (items.takeWhile (!Tree.isAtom "->" ·)) with
    | error => rw [ht] at h; cases h
    | ok types =>
      rw [ht] at h
      cases h
      rw [trees, namesEach_append, namesEach_paramTypes ht, namesEach_singleton, names_resultTree, ← hs]
      congr 1
      cases hd : items.dropWhile (!Tree.isAtom "->" ·) with
      | nil => rfl
      | cons arrow result =>
        have hnot := List.head?_dropWhile_not (!Tree.isAtom "->" ·) items
        rw [hd] at hnot
        have harrow : arrow.isAtom "->" = true := by simpa using hnot
        rw [List.drop_one, List.tail_cons, namesEach, names_of_isAtom harrow (by decide), List.nil_append]

/-- A clause has the variables of the items that it is read from, in the same order. -/
theorem namesEach_ofItems (h : ofItems items = .ok clause) : namesEach clause.trees = namesEach items := by
  have head {word : String} {rest : List Tree} (hw : word ∈ Parser.reserved) :
      namesEach (.atom word :: rest) = namesEach rest := by
    rw [namesEach, Tree.names, if_neg (not_isName_of_word (.inr hw)), List.nil_append]
  unfold ofItems at h
  split at h
  · cases h
  · cases h
  · cases h
  · cases h
    exact (head (by decide)).symm
  · cases h
    exact (head (by decide)).symm
  · cases h
    exact (head (by decide)).symm
  · cases h
  · exact namesEach_ofProc h

end Clause

namespace Parser

variable {start : Nat} {names names' : List String} {before context after : Context} {name : String} {ts : List Ty}

def occurrences (text : String) : List String :=
  (Token.scan 0 text.toList).filterMap (·.token.name?)

theorem occurrences_of_read {text : String} {tree : Tree} (h : Tree.read text = .ok tree) :
    occurrences text = tree.names := by
  have hn := (Tree.renders_of_read h).names
  rwa [List.filterMap_map, Tree.namesEach_singleton] at hn

def enter (scope : List String) (name : String) : List String :=
  if name ∈ scope then scope else scope ++ [name]

theorem foldl_enter (scope names : List String) :
    names.foldl enter scope = scope ++ (names.filter (· ∉ scope)).eraseDups := by
  induction names generalizing scope with
  | nil => rw [List.foldl_nil, List.filter_nil, List.eraseDups_nil, List.append_nil]
  | cons name names ih =>
    rw [List.foldl_cons, enter]
    split
    · next hm => rw [ih, List.filter_cons_of_neg (by simpa using hm)]
    · next hm =>
      rw [ih, List.filter_cons_of_pos (by simpa using hm), List.eraseDups_cons, List.filter_filter,
        List.append_assoc, List.singleton_append]
      congr 4
      funext other
      rw [Bool.eq_iff_iff]
      simp [and_comm]

/-- The names that have variables in the parse that began at `start`. -/
def scope (start : Nat) (context : Context) : List String :=
  (context.cells.drop start).map (·.name)

def Enters (start : Nat) (names : List String) (before after : Context) : Prop :=
  start ≤ before.cells.length →
    start ≤ after.cells.length ∧ scope start after = names.foldl enter (scope start before)

theorem Enters.of_cells (h : after.cells = before.cells) : Enters start [] before after :=
  fun hl ↦ ⟨h ▸ hl, by rw [scope, h]; rfl⟩

theorem Enters.trans (h : Enters start names before context) (h' : Enters start names' context after) :
    Enters start (names ++ names') before after := by
  intro hl
  obtain ⟨hl₁, hs₁⟩ := h hl
  obtain ⟨hl₂, hs₂⟩ := h' hl₁
  exact ⟨hl₂, by rw [hs₂, hs₁, List.foldl_append]⟩

theorem findFrom?_isSome : (context.cells.findFrom? start name).isSome = true ↔ name ∈ scope start context := by
  simp only [Cells.findFrom?, scope, Option.isSome_map, List.findIdx?_isSome, List.any_eq_true, List.mem_map,
    beq_iff_eq]

theorem findFrom?_scope {v : Var} (h : context.cells.findFrom? start name = some v) :
    ∃ i, (scope start context)[i]? = some name ∧ v.cell = some (start + i) := by
  obtain ⟨i, hi, rfl⟩ := Option.map_eq_some_iff.1 h
  obtain ⟨hlt, hname, -⟩ := List.findIdx?_eq_some_iff_getElem.1 hi
  refine ⟨i, ?_, rfl⟩
  rw [scope, List.getElem?_map, List.getElem?_eq_getElem hlt]
  exact congrArg some (beq_iff_eq.1 hname)

theorem parseVar_enters (start : Nat) (name : String) (context : Context) :
    Step.Yields (parseVar start name) context fun _ after ↦ Enters start [name] context after := by
  intro t after h hl
  rw [run_parseVar] at h
  rw [List.foldl_cons, List.foldl_nil, enter]
  split at h
  · next v hfind =>
    cases h
    have hm : name ∈ scope start context := findFrom?_isSome.1 (by rw [hfind]; rfl)
    rw [if_pos hm]
    exact ⟨hl, rfl⟩
  · next hfind =>
    cases h
    have hm : name ∉ scope start context := fun hm ↦ by
      have hs := findFrom?_isSome.2 hm
      rw [hfind] at hs
      cases hs
    rw [if_neg hm, scope, scope, List.drop_append_of_le_length hl, List.map_append]
    exact ⟨by simp; omega, rfl⟩

theorem parseAtom_enters (hw : IsWord name) :
    Step.Yields (parseAtom start name) context fun _ after ↦ Enters start (Tree.atom name).names context after := by
  have none (hn : ¬IsName name) {t : Ty} :
      Step.Yields (pure t) context fun _ after ↦ Enters start (Tree.atom name).names context after := by
    rw [Tree.names, if_neg hn]
    exact .pure (.of_cells rfl)
  unfold parseAtom
  split
  · next hk => exact none fun hn ↦ by cases hk.symm.trans hn.keyword
  · next hk =>
    split
    · next he => exact none fun hn ↦ hn.empty he
    · next he =>
      split
      · exact Step.yields_fail _
      · next hr =>
        split
        · next hs =>
          have hn : IsName name := ⟨hw, hk, he, hr, hs⟩
          rw [Tree.names, if_pos hn]
          exact parseVar_enters start name context
        · exact Step.yields_fail _

theorem ofRun_enters (run : Env → Run Ty) (h : Enters start names before context) :
    Step.Yields (Step.ofRun run) context fun _ after ↦ Enters start names before after := by
  intro t after hr
  rw [Step.run_ofRun] at hr
  obtain rfl := (Prod.mk.inj hr).2
  exact h

def Meets (start : Nat) (tree : Tree) : Prop :=
  ∀ context, Step.Yields (parseTree start tree) context fun _ after ↦ Enters start tree.names context after

theorem parseEach_enters {trees : List Tree} (h : ∀ tree ∈ trees, Meets start tree) :
    Step.Yields (parseEach start trees) context fun _ after ↦
      Enters start (Tree.namesEach trees) context after := by
  induction trees generalizing context with
  | nil =>
    rw [parseEach]
    exact .pure (.of_cells rfl)
  | cons tree trees ih =>
    obtain ⟨hd, htl⟩ := List.forall_mem_cons.1 h
    rw [parseEach, Tree.namesEach]
    refine (hd context).bind fun t next ht ↦ ?_
    exact (ih htl).bind fun ts after hts ↦ .pure (ht.trans hts)

theorem parseParams_enters {trees : List Tree} (h : ∀ tree ∈ trees, Meets start tree) :
    Step.Yields (parseParams start trees) context fun _ after ↦
      Enters start (Tree.namesEach trees) context after := by
  induction trees generalizing context with
  | nil =>
    rw [parseParams]
    exact .pure (.of_cells rfl)
  | cons tree trees ih =>
    obtain ⟨hd, htl⟩ := List.forall_mem_cons.1 h
    rw [parseParams, Tree.namesEach]
    refine (hd context).bind fun t next ht ↦ ?_
    refine single_yields.bind ?_
    rintro _ _ ⟨rfl, rfl, -⟩
    exact (ih htl).bind fun ts after hts ↦ .pure (ht.trans hts)

theorem parseTree_enters {tree : Tree} (hw : tree.Worded) : Meets start tree := by
  induction tree using Clause.tree_induction with
  | atom name =>
    intro context
    obtain ⟨h⟩ := hw
    rw [parseTree]
    exact parseAtom_enters h
  | literal text =>
    intro context
    rw [parseTree]
    exact Step.yields_fail _
  | group items ih =>
    intro context
    have hclause {clause : Clause} (hc : Clause.ofItems items = .ok clause) :
        ∀ tree ∈ clause.trees, Meets start tree :=
      fun tree ht ↦ ih clause hc tree ht (Clause.worded_ofItems hc hw tree ht)
    rw [parseTree, Tree.names]
    split
    · exact Step.yields_fail _
    · next parts hc =>
      rw [← Clause.namesEach_ofItems hc]
      exact (parseEach_enters (hclause hc)).bind fun ts next hts ↦ ofRun_enters _ hts
    · next parts hc =>
      rw [← Clause.namesEach_ofItems hc]
      exact (parseEach_enters (hclause hc)).bind fun ts next hts ↦ ofRun_enters _ hts
    · next inner hc =>
      rw [← Clause.namesEach_ofItems hc, Clause.trees, Tree.namesEach_singleton]
      exact (hclause hc inner List.mem_cons_self context).bind fun t next ht ↦ .pure ht
    · next params result hc =>
      obtain ⟨hparams, hresult⟩ := List.forall_mem_append.1 (hclause hc)
      rw [← Clause.namesEach_ofItems hc, Clause.trees, Tree.namesEach_append, Tree.namesEach_singleton]
      refine (parseParams_enters hparams).bind fun ts next hts ↦ ?_
      refine (hresult result List.mem_cons_self next).bind fun t last ht ↦ ?_
      refine single_yields.bind ?_
      rintro _ _ ⟨rfl, rfl, -⟩
      exact .pure (hts.trans ht)

theorem parseText_enters (text : String) :
    Step.Yields (parseText start text) context fun _ after ↦ Enters start (occurrences text) context after := by
  unfold parseText
  split
  · next tree hr =>
    rw [occurrences_of_read hr]
    exact parseTree_enters (Tree.read_worded hr) context
  · exact Step.yields_fail _

theorem parseTexts_enters (texts : List String) :
    Step.Yields (texts.mapM (parseText start)) context fun _ after ↦
      Enters start (texts.flatMap occurrences) context after := by
  induction texts generalizing context with
  | nil => exact .pure (.of_cells rfl)
  | cons text texts ih =>
    rw [List.mapM_cons, List.flatMap_cons]
    refine (parseText_enters text).bind fun t next ht ↦ ?_
    exact ih.bind fun ts after hts ↦ .pure (ht.trans hts)

end Parser

namespace Step

/--
The cells after a parse of several texts. Whether or not it succeeds, it only adds unbound cells behind the old ones.
If it succeeds, it has added one cell for each name that occurs in the texts, in the order in which the names
occur first, and a variable of the results is at the new cell that its name has got.
-/
theorem parseAll_allocates (texts : List String) (context : Context) :
    (∃ names : List String, ((parseAll texts).run context).2.cells =
        context.cells ++ names.map fun name ↦ ⟨name, none⟩) ∧
      ∀ ts after, (parseAll texts).run context = (.ok ts, after) →
        after.cells =
            context.cells ++ (texts.flatMap Parser.occurrences).eraseDups.map (fun name ↦ ⟨name, none⟩) ∧
          ∀ t ∈ ts, ∀ v ∈ t.vars, ∃ i, (texts.flatMap Parser.occurrences).eraseDups[i]? = some v.name ∧
            v.cell = some (context.cells.length + i) := by
  have hgrows := (parseAll_realizes texts context).grows
  refine ⟨hgrows.cells, fun ts after hr ↦ ?_⟩
  have hscope : Parser.scope context.cells.length after = (texts.flatMap Parser.occurrences).eraseDups := by
    rw [(Parser.parseTexts_enters texts ts after hr le_rfl).2, Parser.foldl_enter, Parser.scope, List.drop_length]
    simp
  refine ⟨?_, fun t ht v hv ↦ ?_⟩
  · rw [hr] at hgrows
    obtain ⟨added, hadded⟩ := hgrows.cells
    have hnames : Parser.scope context.cells.length after = added := by
      rw [Parser.scope, hadded, List.drop_left, List.map_map]
      exact List.map_id added
    rw [← hscope, hnames]
    exact hadded
  · rw [← hscope]
    exact Parser.findFrom?_scope (parseAll_scoped texts context ts after hr t ht v hv)

/-- The `T` that is bound is another one, and `Empty` and the words of the grammar are no names. -/
theorem parseAll_allocates_behind_bound :
    ∃ ts after, (parseAll ["(T * S -> T)", "(union u (Empty -> S)) ; w"]).run { cells := [⟨"T", some .any⟩] } =
        (.ok ts, after) ∧
      after.cells = [⟨"T", some .any⟩, ⟨"T", none⟩, ⟨"S", none⟩, ⟨"u", none⟩] ∧
      ∀ t ∈ ts, ∀ v ∈ t.vars, v.cell ≠ some 0 := by
  let context : Context := { cells := [⟨"T", some .any⟩] }
  let texts := ["(T * S -> T)", "(union u (Empty -> S)) ; w"]
  have hrun : ((parseAll texts).run context).1 =
      .ok [.proc [.var ⟨"T", some 1⟩, .var ⟨"S", some 2⟩] (.var ⟨"T", some 1⟩),
        .union [.proc [] (.var ⟨"S", some 2⟩), .var ⟨"u", some 3⟩]] := by
    decide +kernel
  obtain ⟨-, hallocates⟩ := parseAll_allocates texts context
  obtain ⟨hcells, hvars⟩ := hallocates _ _ (Prod.ext hrun rfl)
  refine ⟨_, _, Prod.ext hrun rfl, hcells.trans (by decide +kernel), ?_⟩
  intro t ht v hv hzero
  obtain ⟨i, -, hi⟩ := hvars t ht v hv
  rw [hi] at hzero
  have hlength : context.cells.length = 1 := rfl
  have hindex := Option.some.inj hzero
  omega

end Step

end TypeAlgebra
