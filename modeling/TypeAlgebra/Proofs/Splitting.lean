import TypeAlgebra.Command.Evaluate
import TypeAlgebra.Proofs.Acceptance
import TypeAlgebra.Proofs.Positions

namespace TypeAlgebra

namespace Text

variable {mark cs before after : List Char}

theorem append_of_cutChars? (h : cutChars? mark cs = some (before, after)) : cs = before ++ (mark ++ after) := by
  induction cs generalizing before with
  | nil =>
    unfold cutChars? at h
    split at h
    · next hm =>
      cases h
      rw [List.isEmpty_iff.1 hm]
      rfl
    · cases h
  | cons c cs ih =>
    unfold cutChars? at h
    split at h
    · next hp =>
      cases h
      obtain ⟨rest, hrest⟩ := List.isPrefixOf_iff_prefix.1 hp
      simp [← hrest]
    · obtain ⟨⟨before', after'⟩, hcut, he⟩ := Option.map_eq_some_iff.1 h
      cases he
      rw [ih hcut, List.cons_append]

theorem cutChars?_ne_none (mark before after : List Char) : cutChars? mark (before ++ (mark ++ after)) ≠ none := by
  induction before with
  | nil =>
    have hp : mark.isPrefixOf (mark ++ after) = true := List.isPrefixOf_iff_prefix.2 (List.prefix_append mark after)
    rw [List.nil_append]
    cases he : mark ++ after with
    | nil => simp [cutChars?, (List.append_eq_nil_iff.1 he).1]
    | cons c cs =>
      rw [he] at hp
      simp [cutChars?, hp]
  | cons c before ih =>
    rw [List.cons_append, cutChars?]
    split
    · exact Option.some_ne_none _
    · simpa using ih

end Text

namespace Token

variable {before after : List Char} {word : String}

/-- A word between blanks is a token, and the text before it is cut on its own. -/
theorem scan_spaced (hw : IsWord word) (hc : ';' ∉ before) (hq : '"' ∉ before) (after : List Char) :
    ∃ offset, scan 0 (before ++ ' ' :: (word.toList ++ ' ' :: after)) =
      scan 0 before ++ ⟨before.length + 1, .atom word⟩ :: scan offset after := by
  have hspace : ¬Plain ' ' := not_plain_of_isDelimiter (by decide)
  have hspell : Spells word.toList (.atom word) := by
    have hs := Spells.atom hw.nonempty fun c hc ↦ plain_iff.2 (hw.solid c hc)
    rwa [String.ofList_toList] at hs
  have hends : EndsBefore (.atom word) (' ' :: after) := by simpa [EndsBefore] using hspace
  have hafter : Marks (before.length + 1 + word.toList.length) (' ' :: after) _ :=
    .blank (by decide) (marks_scan _ after)
  have hmarks := (marks_scan 0 before).append hc hq (by simpa using hspace)
    (.blank (by decide) (.token hspell hends (by rwa [Nat.zero_add])))
  rw [Nat.zero_add] at hmarks
  exact ⟨_, hmarks.scan⟩

end Token

namespace Tree

inductive Leaves (P : String → Prop) : Tree → Prop
  | atom {text : String} : P text → Leaves P (.atom text)
  | group {items : List Tree} : (∀ tree ∈ items, Leaves P tree) → Leaves P (.group items)

variable {P : String → Prop} {tree : Tree} {items trees params types : List Tree} {tokens : List Token}

theorem Leaves.forall_mem (h : Leaves P (.group items)) : ∀ tree ∈ items, Leaves P tree := by
  cases h with
  | group h => exact h

theorem leaves_resultTree (h : Leaves P (Clause.resultTree trees)) : ∀ tree ∈ trees, Leaves P tree := by
  unfold Clause.resultTree at h
  split at h
  · exact List.forall_mem_singleton.2 h
  · exact h.forall_mem

theorem leaves_params (he : P "Empty") (hs : P "*") (h : ParamList params types) (ht : ∀ type ∈ types, Leaves P type) :
    ∀ tree ∈ params, Leaves P tree := by
  cases h with
  | none => exact List.forall_mem_singleton.2 (.atom he)
  | some h =>
    induction h with
    | one => exact ht
    | more tree _ ih =>
      obtain ⟨hd, htl⟩ := List.forall_mem_cons.1 ht
      exact List.forall_mem_cons.2 ⟨hd, List.forall_mem_cons.2 ⟨.atom hs, ih htl⟩⟩

/-- The tokens of a rendering are brackets and the leaves of the trees. -/
theorem Renders.exists_atom (hr : Renders trees tokens) (h : ∀ tree ∈ trees, Leaves P tree) {token : Token}
    (ht : token ∈ tokens) :
    (∃ bracket, token = .opening bracket ∨ token = .closing bracket) ∨ ∃ text, token = .atom text ∧ P text := by
  induction hr with
  | nil => cases ht
  | atom _ ih =>
    obtain ⟨hd, htl⟩ := List.forall_mem_cons.1 h
    rcases List.mem_cons.1 ht with rfl | ht
    · cases hd with
      | atom hp => exact .inr ⟨_, rfl, hp⟩
    · exact ih htl ht
  | literal => cases (List.forall_mem_cons.1 h).1
  | group bracket _ _ ih₁ ih₂ =>
    obtain ⟨hd, htl⟩ := List.forall_mem_cons.1 h
    rcases List.mem_cons.1 ht with rfl | ht
    · exact .inl ⟨bracket, .inl rfl⟩
    · rcases List.mem_append.1 ht with ht | ht
      · exact ih₁ hd.forall_mem ht
      · rcases List.mem_cons.1 ht with rfl | ht
        · exact .inl ⟨bracket, .inr rfl⟩
        · exact ih₂ htl ht

end Tree

namespace Operator

variable {operator other : Operator} {name left right text : String} {tree : Tree}

theorem symbol_injective : Function.Injective symbol := by
  intro a b h
  cases a <;> cases b <;> first | rfl | exact absurd h (by decide)

theorem isWord_symbol (operator : Operator) : IsWord operator.symbol := by
  cases operator <;> decide

theorem symbol_mem (operator : Operator) : operator.symbol ∈ all.map symbol := by
  cases operator <;> decide

theorem ofSymbol?_symbol (operator : Operator) : ofSymbol? operator.symbol = some operator := by
  cases operator <;> decide

theorem symbol_ne_of_isType (h : (Tree.atom name).IsType) : name ∉ all.map symbol := by
  intro hm
  obtain ⟨u, hu⟩ := Parser.exists_denoteAtom h
  obtain ⟨operator, -, rfl⟩ := List.mem_map.1 hm
  have hstarts : Parser.startsName operator.symbol = false := by cases operator <;> decide +kernel
  have hkeyword : Kind.ofKeyword? operator.symbol = none := by cases operator <;> decide
  have hempty : operator.symbol ≠ "Empty" := by cases operator <;> decide
  simp only [Parser.denoteAtom, hkeyword, if_neg hempty, hstarts] at hu
  split at hu <;> cases hu

/-- No operator is among the leaves of a type expression. -/
theorem leaves_of_isType (h : tree.IsType) : tree.Leaves (· ∉ all.map symbol) := by
  induction h with
  | keyword hk => exact .atom (symbol_ne_of_isType (.keyword hk))
  | empty => exact .atom (by decide)
  | var hr hs => exact .atom (symbol_ne_of_isType (.var hr hs))
  | union _ _ ih => exact .group (List.forall_mem_cons.2 ⟨.atom (by decide), ih⟩)
  | inter _ _ ih => exact .group (List.forall_mem_cons.2 ⟨.atom (by decide), ih⟩)
  | pred _ ih =>
    exact .group (List.forall_mem_cons.2 ⟨.atom (by decide), List.forall_mem_singleton.2 ih⟩)
  | proc _ _ hparams _ _ _ _ _ _ ih ihr =>
    have hp := Tree.leaves_params (by decide) (by decide) hparams ih
    exact .group (List.forall_mem_append.2 ⟨hp, List.forall_mem_cons.2 ⟨.atom (by decide), Tree.leaves_resultTree ihr⟩⟩)

/-- A text in which nothing is found that belongs to an operator, a comment or a string literal. -/
structure Operand (text : String) : Prop where
  commentless : ';' ∉ text.toList
  quoteless : '"' ∉ text.toList
  symbolless : ∀ operator : Operator, ∀ offset, ∀ lexeme ∈ Token.scan offset text.toList,
    lexeme.token ≠ .atom operator.symbol

theorem operand_of_parse {context after : Context} {t : Ty} (hc : ';' ∉ text.toList)
    (h : (Step.parse text).run context = (.ok t, after)) : Operand text := by
  obtain ⟨u, hu, -⟩ := (Step.parse_realizes text context).of_run_ok h
  obtain ⟨tree, hread, hdenote⟩ := exists_of_bind_eq_ok hu
  have hleaves := leaves_of_isType (Parser.denote_means hdenote).1
  have hrenders := Tree.renders_of_read hread
  have hcuts := Token.cuts_scan 0 _ hrenders.unterminated_not_mem
  have htokens (offset : Nat) {lexeme : Lexeme} (hm : lexeme ∈ Token.scan offset text.toList) :
      (∃ bracket, lexeme.token = .opening bracket ∨ lexeme.token = .closing bracket) ∨
        ∃ name, lexeme.token = .atom name ∧ name ∉ all.map symbol := by
    refine hrenders.exists_atom (List.forall_mem_singleton.2 hleaves) ?_
    rw [← hcuts.scan offset]
    exact List.mem_map_of_mem hm
  have hmarks := Token.marks_scan 0 text.toList
  refine ⟨hc, hmarks.quote_not_mem hc fun lexeme hm ↦ ?_, fun operator offset lexeme hm he ↦ ?_⟩
  · rcases htokens 0 hm with ⟨bracket, he | he⟩ | ⟨name, he, -⟩ <;> simp [he]
  · rcases htokens offset hm with ⟨bracket, h | h⟩ | ⟨name, h, hname⟩
    · cases he.symm.trans h
    · cases he.symm.trans h
    · cases he.symm.trans h
      exact hname (symbol_mem operator)

/-- A line in which two operands are joined by an operator has no other operator between blanks. -/
theorem join_unique {before after : List Char} (hl : Operand left) (hr : Operand right)
    (h : left.toList ++ ' ' :: (operator.symbol.toList ++ ' ' :: right.toList) =
      before ++ ' ' :: (other.symbol.toList ++ ' ' :: after)) :
    other = operator ∧ before = left.toList ∧ after = right.toList := by
  have hchars {c : Char} (hl : c ∉ left.toList) (hr : c ∉ right.toList) (hs : c ≠ ' ')
      (ho : c ∉ operator.symbol.toList) : c ∉ before := by
    intro hm
    have hline : c ∈ before ++ ' ' :: (other.symbol.toList ++ ' ' :: after) := List.mem_append_left _ hm
    rw [← h] at hline
    simp [hl, hr, hs, ho] at hline
  have hc : ';' ∉ before := hchars hl.commentless hr.commentless (by decide) (by cases operator <;> decide)
  have hq : '"' ∉ before := hchars hl.quoteless hr.quoteless (by decide) (by cases operator <;> decide)
  obtain ⟨start, hjoined⟩ := Token.scan_spaced operator.isWord_symbol hl.commentless hl.quoteless right.toList
  obtain ⟨start', hfound⟩ := Token.scan_spaced other.isWord_symbol hc hq after
  -- the operator that is found is a token of the joined line, and the operands have no such token
  have hm : ⟨before.length + 1, .atom other.symbol⟩ ∈
      Token.scan 0 left.toList ++ ⟨left.toList.length + 1, .atom operator.symbol⟩ :: Token.scan start right.toList := by
    rw [← hjoined, h, hfound]
    exact List.mem_append_right _ List.mem_cons_self
  obtain ⟨hoffset, hsymbol⟩ : before.length + 1 = left.toList.length + 1 ∧ other.symbol = operator.symbol := by
    rcases List.mem_append.1 hm with hm | hm
    · exact absurd rfl (hl.symbolless other 0 _ hm)
    · rcases List.mem_cons.1 hm with he | hm
      · simpa using he
      · exact absurd rfl (hr.symbolless other start _ hm)
  obtain rfl := symbol_injective hsymbol
  obtain ⟨rfl, hrest⟩ := List.append_inj h (Nat.succ.inj hoffset).symm
  refine ⟨rfl, rfl, ?_⟩
  simpa using hrest.symm

theorem cut?_joined (hl : Operand left) (hr : Operand right) (operator other : Operator) :
    Text.cut? (" " ++ other.symbol ++ " ") (left ++ " " ++ operator.symbol ++ " " ++ right) =
      if other = operator then some (left, right) else none := by
  have hline : (left ++ " " ++ operator.symbol ++ " " ++ right).toList =
      left.toList ++ ' ' :: (operator.symbol.toList ++ ' ' :: right.toList) := by simp
  have hmark : (" " ++ other.symbol ++ " ").toList = ' ' :: (other.symbol.toList ++ [' ']) := by simp
  rw [Text.cut?, hline, hmark]
  cases hcut : Text.cutChars? (' ' :: (other.symbol.toList ++ [' ']))
      (left.toList ++ ' ' :: (operator.symbol.toList ++ ' ' :: right.toList)) with
  | some parts =>
    obtain ⟨before, after⟩ := parts
    have happend := Text.append_of_cutChars? hcut
    obtain ⟨rfl, rfl, rfl⟩ := join_unique hl hr (by simpa using happend)
    simp
  | none =>
    have hne : other ≠ operator := by
      rintro rfl
      refine Text.cutChars?_ne_none (' ' :: (other.symbol.toList ++ [' '])) left.toList right.toList ?_
      simpa using hcut
    simp [hne]

theorem split?_joined (hl : Operand left) (hr : Operand right) (operator : Operator) :
    split? (left ++ " " ++ operator.symbol ++ " " ++ right) = some (operator, left, right) := by
  simp only [split?, cut?_joined hl hr]
  cases operator <;> rfl

end Operator

namespace Step

/--
A line in which an operator stands between two type expressions without comments has the answer that the operator
gives for the two, and leaves the same cells.
-/
theorem evaluate_joined {left right symbol : String} {s t : Ty} {before before' after after' : Context}
    (hl : (parse left).run before = (.ok s, after)) (hr : (parse right).run before' = (.ok t, after'))
    (hcl : ';' ∉ left.toList) (hcr : ';' ∉ right.toList) (hs : symbol ∈ ["<:", "~", "-"]) (context : Context) :
    (evaluate (left ++ " " ++ symbol ++ " " ++ right)).run context = (applySymbol symbol left right).run context := by
  obtain ⟨operator, -, rfl⟩ := List.mem_map.1 (show symbol ∈ Operator.all.map Operator.symbol from hs)
  have hleft := Operator.operand_of_parse hcl hl
  have hright := Operator.operand_of_parse hcr hr
  rw [evaluate, Operator.split?_joined hleft hright, applySymbol, Operator.ofSymbol?_symbol]

-- Arrows hold a dash, a blank stands at the seam, and `a` is bound where the line is evaluated.
theorem evaluate_joined_arrows :
    ((parse "(a -> number) ").run {}).1 = .ok (.proc [.var ⟨"a", some 0⟩] (.atomic .number)) ∧
      ((parse "(a * b -> c)").run {}).1 =
        .ok (.proc [.var ⟨"a", some 0⟩, .var ⟨"b", some 1⟩] (.var ⟨"c", some 2⟩)) ∧
      (evaluate "(a -> number)  - (a * b -> c)").run { cells := [⟨"a", some .any⟩], limit := 1 } =
        (applySymbol "-" "(a -> number) " "(a * b -> c)").run { cells := [⟨"a", some .any⟩], limit := 1 } := by
  have hl : ((parse "(a -> number) ").run {}).1 = .ok (.proc [.var ⟨"a", some 0⟩] (.atomic .number)) := by
    decide +kernel
  have hr : ((parse "(a * b -> c)").run {}).1 =
      .ok (.proc [.var ⟨"a", some 0⟩, .var ⟨"b", some 1⟩] (.var ⟨"c", some 2⟩)) := by
    decide +kernel
  have hs : "-" ∈ ["<:", "~", "-"] := by decide
  exact ⟨hl, hr, evaluate_joined (Prod.ext hl rfl) (Prod.ext hr rfl) (by decide) (by decide) hs _⟩

end Step

end TypeAlgebra
