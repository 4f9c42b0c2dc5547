import TypeAlgebra.Proofs.Positions

namespace TypeAlgebra

namespace Token

variable {cs rest : List Char} {tokens more : List Token}

/-- What is written on the lines after a text is cut on its own. -/
theorem Cuts.append_line (h : Cuts cs tokens) (h' : Cuts rest more) : Cuts (cs ++ '\n' :: rest) (tokens ++ more) := by
  have hline : ∀ c ∈ ('\n' :: rest).head?, c = '\n' := by simp
  have hends : ¬Plain '\n' := not_plain_of_isDelimiter (by decide)
  induction h with
  | done => exact .blank (by decide) h'
  | blank hb _ ih => exact .blank hb ih
  | @comment body after tokens hb hr _ ih =>
    rw [List.cons_append, List.append_assoc]
    refine .comment hb ?_ ih
    cases after with
    | nil => exact hline
    | cons c after => exact hr
  | opening bracket _ ih => exact .opening bracket ih
  | closing bracket _ ih => exact .closing bracket ih
  | literal hw _ ih =>
    rw [List.cons_append, List.append_assoc]
    exact .literal hw ih
  | @atom word after tokens hne hp hr _ ih =>
    rw [List.append_assoc]
    refine .atom hne hp ?_ ih
    cases after with
    | nil => simpa using hends
    | cons c after => exact hr

theorem cuts_closing (brackets : List Bracket) : Cuts (brackets.map Bracket.closing) (brackets.map closing) := by
  induction brackets with
  | nil => exact .done
  | cons bracket brackets ih => exact .closing bracket ih

/-- A string literal that is cut off can be ended: a backslash at its end takes one character more. -/
theorem exists_escapes (h : literalBody? cs = none) : ∃ more body, Escapes (cs ++ more) body := by
  fun_induction literalBody? cs with
  | case1 => exact ⟨[], [], .nil⟩
  | case2 => cases h
  | case3 => exact ⟨['\\'], ['\\'], .escaped (by decide) (by decide) .nil⟩
  | case4 c rest ih =>
    obtain ⟨more, body, hw⟩ := ih (Option.map_eq_none_iff.1 h)
    by_cases hn : c = 'n'
    · subst hn
      exact ⟨more, _, .newline hw⟩
    · by_cases ht : c = 't'
      · subst ht
        exact ⟨more, _, .tab hw⟩
      · exact ⟨more, _, .escaped hn ht hw⟩
  | case5 c rest h₁ h₂ h₃ ih =>
    obtain ⟨more, body, hw⟩ := ih (Option.map_eq_none_iff.1 h)
    have hb : c ≠ '\\' := by
      rintro rfl
      cases rest with
      | nil => exact h₂ rfl rfl
      | cons d ds => exact h₃ d ds rfl rfl
    exact ⟨more, _, .plain h₁ hb hw⟩

end Token

def ReadFlaw.isFinal : ReadFlaw → Bool
  | trailing _ | unbalanced _ | mismatched .. => true
  | unclosed _ | unterminated | nothing => false

namespace Tree

open TypeAlgebra.Token (Cuts Escapes Plain Leads Begins Marks Spells Continues marks_scan not_plain_of_isDelimiter)

variable {tree : Tree} {trees : List Tree} {tokens : List Token} {lexeme : Lexeme} {lexemes piece : List Lexeme}
  {flaw : ReadFlaw} {offset : Nat} {text : String}

namespace Reading

variable {reading next : Reading} {g : OpenGroup} {groups : List OpenGroup}

/-- What has been read: trees that are complete, and for each open group its bracket and what follows it. -/
inductive Pending : List Lexeme → Reading → Prop
  | flat {lexemes : List Lexeme} {trees : List Tree} : Renders trees (lexemes.map Lexeme.token) →
      Pending lexemes ⟨⟨[]⟩, trees⟩
  | nested {outer inner : List Lexeme} (g : OpenGroup) {groups : List OpenGroup} {trees : List Tree} :
      Pending outer ⟨⟨groups⟩, trees⟩ → Renders g.items (inner.map Lexeme.token) →
      Pending (outer ++ ⟨g.start, .opening g.bracket⟩ :: inner) ⟨⟨g :: groups⟩, trees⟩

theorem Pending.unterminated_not_mem (h : Pending lexemes reading) :
    Token.unterminated ∉ lexemes.map Lexeme.token := by
  induction h with
  | flat hr => exact hr.unterminated_not_mem
  | nested _ _ hr ih => simpa using ⟨by simpa using ih, by simpa using hr.unterminated_not_mem⟩

theorem Pending.add (h : Pending lexemes reading) (ht : Renders [tree] (piece.map Lexeme.token)) :
    Pending (lexemes ++ piece) (reading.add tree) := by
  cases h with
  | flat hr =>
    rw [add_nil]
    refine .flat ?_
    rw [List.map_append]
    exact hr.append ht
  | nested g ho hr =>
    rw [add_cons, List.append_assoc, List.cons_append]
    refine .nested { g with items := g.items ++ [tree] } ho ?_
    rw [List.map_append]
    exact hr.append ht

theorem Pending.close (h : Pending lexemes ⟨⟨g :: groups⟩, trees⟩) (offset : Nat) :
    Pending (lexemes ++ [⟨offset, .closing g.bracket⟩]) (Reading.add ⟨⟨groups⟩, trees⟩ (.group g.items)) := by
  cases h with
  | nested _ ho hr =>
    rw [List.append_assoc]
    refine ho.add ?_
    have hgroup := Renders.group g.bracket hr .nil
    simpa using hgroup

theorem Pending.step (h : Pending lexemes reading) (hs : reading.step false lexeme = .ok next) :
    Pending (lexemes ++ [lexeme]) next := by
  obtain ⟨offset, token⟩ := lexeme
  rw [step_eq] at hs
  cases token with
  | opening bracket =>
    cases hs
    exact .nested ⟨bracket, offset, []⟩ h .nil
  | closing bracket =>
    obtain ⟨g, groups, rfl, hg, rfl⟩ := close_eq_ok hs
    rw [hg] at h
    exact h.close offset
  | literal text =>
    cases hs
    exact h.add (.literal .nil)
  | atom text =>
    cases hs
    exact h.add (.atom .nil)
  | unterminated => cases hs

def Sole (reading : Reading) : Prop :=
  reading.trees = [] ∨ reading.groups.items = [] ∧ ∃ tree, reading.trees = [tree]

theorem sole_add (h : reading.trees = []) (tree : Tree) : (reading.add tree).Sole := by
  obtain ⟨⟨groups⟩, trees⟩ := reading
  cases h
  cases groups with
  | nil => exact .inr ⟨rfl, tree, rfl⟩
  | cons g groups => exact .inl rfl

/-- What is added is a tree by itself, or stands in an open group. -/
theorem add_unfinished (reading : Reading) (tree : Tree) :
    (reading.add tree).trees = [] → (reading.add tree).groups.items ≠ [] := by
  obtain ⟨⟨groups⟩, trees⟩ := reading
  intro ht
  cases groups with
  | nil => simp [add_nil] at ht
  | cons g groups => exact List.cons_ne_nil _ _

theorem Sole.eq_nil_of_open (h : Sole ⟨⟨g :: groups⟩, trees⟩) : trees = [] := by
  rcases h with ht | ⟨hg, -⟩
  · exact ht
  · cases hg

theorem Sole.trees_eq_nil (h : reading.Sole) (hs : reading.step true lexeme = .ok next) : reading.trees = [] := by
  rcases h with ht | ⟨-, tree, ht⟩
  · exact ht
  · rw [step_single_cons ht] at hs
    cases hs

theorem Sole.step (h : reading.Sole) (hs : reading.step true lexeme = .ok next) : next.Sole := by
  have ht := h.trees_eq_nil hs
  obtain ⟨offset, token⟩ := lexeme
  rw [step_single ht, step_eq] at hs
  cases token with
  | opening bracket =>
    cases hs
    exact .inl ht
  | closing bracket =>
    obtain ⟨g, groups, -, -, rfl⟩ := close_eq_ok hs
    exact sole_add (show Reading.trees ⟨⟨groups⟩, reading.trees⟩ = [] from ht) _
  | literal text =>
    cases hs
    exact sole_add ht _
  | atom text =>
    cases hs
    exact sole_add ht _
  | unterminated => cases hs

inductive Fails : List Lexeme → Nat → ReadFlaw → Prop
  | unclosed {lexemes : List Lexeme} {g : OpenGroup} {groups : List OpenGroup} :
      Pending lexemes ⟨⟨g :: groups⟩, []⟩ → Fails lexemes g.start (.unclosed g.bracket)
  | refused {before after : List Lexeme} {lexeme : Lexeme} {reading : Reading} {flaw : ReadFlaw} :
      Pending before reading → reading.Sole → reading.step true lexeme = .error flaw →
      Fails (before ++ lexeme :: after) lexeme.offset flaw

theorem run_fails {before : List Lexeme} (hp : Pending before reading) (hs : reading.Sole)
    (h : reading.run true lexemes = .error (offset, flaw)) : Fails (before ++ lexemes) offset flaw := by
  induction lexemes generalizing before reading with
  | nil =>
    obtain ⟨⟨groups⟩, trees⟩ := reading
    cases groups with
    | nil => cases h
    | cons g groups =>
      obtain rfl := hs.eq_nil_of_open
      cases h
      rw [List.append_nil]
      exact .unclosed hp
  | cons lexeme rest ih =>
    cases hstep : reading.step true lexeme with
    | ok next =>
      rw [run_of_step hstep] at h
      have hnext := (step_single (hs.trees_eq_nil hstep) lexeme).symm.trans hstep
      have hfails := ih (hp.step hnext) (hs.step hstep) h
      rwa [List.append_assoc] at hfails
    | error found =>
      rw [run, hstep] at h
      cases h
      exact .refused hp hs hstep

/-- A token is refused because of what was read before it, unless it is a string literal that is cut off. -/
theorem step_error (hs : reading.Sole) (h : reading.step true lexeme = .error flaw) :
    flaw.isFinal = true ∨ flaw = .unterminated ∧ lexeme.token = .unterminated ∧ reading.trees = [] := by
  rcases hs with ht | ⟨-, tree, ht⟩
  · obtain ⟨offset, token⟩ := lexeme
    rw [step_single ht, step_eq] at h
    cases token with
    | opening | literal | atom => cases h
    | closing bracket =>
      simp only [close] at h
      split at h
      · cases h
        exact .inl rfl
      · split at h
        · cases h
        · cases h
          exact .inl rfl
    | unterminated =>
      cases h
      exact .inr ⟨rfl, rfl, ht⟩
  · rw [step_single_cons ht] at h
    cases h
    exact .inl rfl

theorem not_fails_nothing : ¬Fails lexemes offset .nothing := by
  intro h
  cases h with
  | refused _ hs hstep =>
    rcases step_error hs hstep with hf | ⟨hf, -⟩
    · cases hf
    · cases hf

theorem run_nil_ne (hf : flaw.isFinal = true) : reading.run true [] ≠ .error (offset, flaw) := by
  obtain ⟨⟨groups⟩, trees⟩ := reading
  intro h
  cases groups with
  | nil => cases h
  | cons g groups =>
    cases h
    cases hf

/-- A reading that has failed for good fails in the same way on every longer text. -/
theorem run_continues {more : List Lexeme} (hc : Continues lexemes more) (hs : reading.Sole) (hf : flaw.isFinal = true)
    (h : reading.run true lexemes = .error (offset, flaw)) : reading.run true more = .error (offset, flaw) := by
  induction hc generalizing reading with
  | done => exact absurd h (run_nil_ne hf)
  | next lexeme _ ih =>
    cases hstep : reading.step true lexeme with
    | ok next =>
      rw [run_of_step hstep] at h ⊢
      exact ih (hs.step hstep) h
    | error found =>
      rw [run, hstep] at h ⊢
      exact h
  | @atom start word token more =>
    rcases hs with ht | ⟨-, tree, ht⟩
    · have hstep : reading.step true ⟨start, .atom word⟩ = .ok (reading.add (.atom word)) := step_single ht _
      rw [run_of_step hstep] at h
      exact absurd h (run_nil_ne hf)
    · rw [run, step_single_cons ht] at h ⊢
      exact h
  | @unterminated start token more =>
    rcases hs with ht | ⟨-, tree, ht⟩
    · have hstep : reading.step true ⟨start, .unterminated⟩ = .error .unterminated := step_single ht _
      rw [run, hstep] at h
      cases h
      cases hf
    · rw [run, step_single_cons ht] at h ⊢
      exact h

/-- Closing every open group completes the one tree that is being read. -/
theorem Pending.exists_closing (h : Pending lexemes reading) (hs : reading.Sole)
    (hne : reading.trees = [] → reading.groups.items ≠ []) :
    ∃ (brackets : List Bracket) (tree : Tree),
      Renders [tree] (lexemes.map Lexeme.token ++ brackets.map Token.closing) := by
  induction hn : reading.groups.items.length generalizing lexemes reading with
  | zero =>
    obtain ⟨⟨groups⟩, trees⟩ := reading
    obtain rfl : groups = [] := List.eq_nil_of_length_eq_zero hn
    rcases hs with ht | ⟨-, tree, ht⟩
    · exact absurd rfl (hne ht)
    · cases ht
      cases h with
      | flat hr => exact ⟨[], tree, by simpa using hr⟩
  | succ n ih =>
    obtain ⟨⟨groups⟩, trees⟩ := reading
    obtain ⟨g, groups, rfl⟩ : ∃ g rest, groups = g :: rest :=
      List.exists_cons_of_ne_nil (List.ne_nil_of_length_eq_add_one hn)
    obtain rfl := hs.eq_nil_of_open
    -- one bracket fewer is missing, and the group stands in the next one or is the tree
    have hadd : (Reading.add ⟨⟨groups⟩, []⟩ (.group g.items)).Sole := sole_add rfl _
    have hlength : (Reading.add ⟨⟨groups⟩, []⟩ (.group g.items)).groups.items.length = n := by
      cases groups with
      | nil => exact Nat.succ.inj hn
      | cons g' groups => exact Nat.succ.inj hn
    obtain ⟨brackets, tree, hr⟩ := ih (h.close 0) hadd (add_unfinished _ _) hlength
    refine ⟨g.bracket :: brackets, tree, ?_⟩
    simpa using hr

end Reading

open Reading (Pending Sole Fails run_fails)

theorem read_of_cuts (hc : Cuts text.toList tokens) (hr : Renders [tree] tokens) : read text = .ok tree := by
  rw [read_iff_run, Reading.run_single_iff {} (Nat.zero_le 1), Reading.run_eq_ok_iff, Reading.finishes_empty_iff,
    hc.scan 0]
  exact ⟨hr, le_rfl⟩

theorem exists_of_read_error {problem : Problem} (h : read text = .error problem) :
    (problem = unreadable text 0 .nothing ∧ Reading.run true {} (Token.scan 0 text.toList) = .ok []) ∨
      ∃ offset flaw, problem = unreadable text offset flaw ∧
        Reading.run true {} (Token.scan 0 text.toList) = .error (offset, flaw) := by
  unfold read at h
  split at h
  · cases h
  · next hrun =>
    cases h
    exact .inl ⟨rfl, hrun⟩
  · next offset flaw hrun =>
    cases h
    exact .inr ⟨offset, flaw, rfl, hrun⟩

theorem fails_of_run (h : Reading.run true {} (Token.scan 0 text.toList) = .error (offset, flaw)) :
    Fails (Token.scan 0 text.toList) offset flaw := by
  have hempty : Pending [] {} := .flat .nil
  have hfails := run_fails hempty (.inl rfl) h
  rwa [List.nil_append] at hfails

/-- A flaw that is final is found at an index of the text, and found there again in every longer text. -/
theorem read_append_of_final (hf : flaw.isFinal = true)
    (h : Reading.run true {} (Token.scan 0 text.toList) = .error (offset, flaw)) :
    offset < text.length ∧ ∀ more, read (text ++ more) = .error (unreadable (text ++ more) offset flaw) := by
  constructor
  · have hfails := fails_of_run h
    generalize hl : Token.scan 0 text.toList = lexemes at hfails
    cases hfails with
    | unclosed => cases hf
    | @refused before after lexeme _ _ _ _ _ =>
      have hm : lexeme ∈ Token.scan 0 text.toList := by
        rw [hl]
        exact List.mem_append_right _ List.mem_cons_self
      have hoffset := ((marks_scan 0 text.toList).offset_of_mem hm).2
      rwa [Nat.zero_add, String.length_toList] at hoffset
  · intro more
    have hc := (marks_scan 0 text.toList).continues more.toList
    have hrun := Reading.run_continues hc (.inl rfl) hf h
    rw [read, String.toList_append, hrun]

/-- The innermost group that the text leaves open starts with this bracket, at this index: only complete trees
follow it. -/
inductive LeavesOpen : List Char → Nat → Bracket → Prop
  | intro {before after : List Char} {tokens inner : List Token} {items : List Tree} (bracket : Bracket) :
      Leads before tokens → Cuts after inner → Renders items inner →
      LeavesOpen (before ++ bracket.opening :: after) before.length bracket

inductive LeavesQuoted : List Char → Nat → Prop
  | intro {before after : List Char} {tokens : List Token} : Leads before tokens →
      (∀ written body rest, Escapes written body → after ≠ written ++ '"' :: rest) →
      LeavesQuoted (before ++ '"' :: after) before.length

theorem leavesOpen_of_fails {bracket : Bracket} (h : Fails (Token.scan 0 text.toList) offset (.unclosed bracket)) :
    LeavesOpen text.toList offset bracket ∧ ∃ more tree, read (text ++ more) = .ok tree := by
  have hmarks := marks_scan 0 text.toList
  generalize Token.scan 0 text.toList = lexemes at h hmarks
  cases h with
  | @unclosed _ g groups hp =>
    constructor
    · cases hp with
      | nested _ _ hr =>
        obtain ⟨before, rest, htext, hoffset, hlead, hbegin⟩ := hmarks.exists_leads rfl
        obtain ⟨after, rfl, hafter⟩ := hbegin.of_opening
        have hopen := LeavesOpen.intro g.bracket hlead (hafter.cuts hr.unterminated_not_mem) hr
        rw [Nat.zero_add] at hoffset
        rwa [htext, show g.start = before.length from hoffset]
    · obtain ⟨brackets, tree, hr⟩ := hp.exists_closing (.inl rfl) fun _ ↦ List.cons_ne_nil _ _
      have hcuts := (hmarks.cuts hp.unterminated_not_mem).append_line (Token.cuts_closing brackets)
      refine ⟨.ofList ('\n' :: brackets.map Bracket.closing), tree, read_of_cuts ?_ hr⟩
      rwa [String.toList_append, String.toList_ofList]
  | refused _ hs hstep =>
    rcases Reading.step_error hs hstep with hf | ⟨hf, -⟩
    · cases hf
    · cases hf

theorem leavesQuoted_of_fails (h : Fails (Token.scan 0 text.toList) offset .unterminated) :
    LeavesQuoted text.toList offset ∧ ∃ more tree, read (text ++ more) = .ok tree := by
  have hmarks := marks_scan 0 text.toList
  generalize Token.scan 0 text.toList = lexemes at h hmarks
  cases h with
  | @refused before after lexeme reading _ hp hs hstep =>
    obtain ⟨offset, token⟩ := lexeme
    obtain ⟨rfl, ht⟩ : token = .unterminated ∧ reading.trees = [] := by
      rcases Reading.step_error hs hstep with hf | ⟨-, htoken, ht⟩
      · cases hf
      · exact ⟨htoken, ht⟩
    obtain ⟨head, rest, htext, hoffset, hlead, hbegin⟩ := hmarks.exists_leads rfl
    obtain ⟨quoted, rfl, hquoted⟩ := hbegin.of_unterminated
    constructor
    · have hopen : LeavesQuoted (head ++ '"' :: quoted) head.length := by
        refine .intro hlead fun written body rest hw he ↦ ?_
        rw [he, Token.literalBody?_of_escapes hw] at hquoted
        cases hquoted
      rw [Nat.zero_add] at hoffset
      rwa [htext, hoffset]
    · obtain ⟨more, body, hw⟩ := Token.exists_escapes hquoted
      -- the literal is the tree, or stands in the innermost group
      have hread : Pending (before ++ [⟨0, .literal (.ofList body)⟩]) (reading.add (.literal (.ofList body))) :=
        hp.add (.literal .nil)
      obtain ⟨brackets, tree, hr⟩ := hread.exists_closing (Reading.sole_add ht _) (Reading.add_unfinished _ _)
      have hquote : ∀ c ∈ ('"' :: (quoted ++ more ++ '"' :: brackets.map Bracket.closing)).head?, ¬Plain c := by
        rintro _ ⟨⟩
        exact not_plain_of_isDelimiter (by decide)
      have hcuts := hlead _ _ hquote (.literal hw (Token.cuts_closing brackets))
      refine ⟨.ofList (more ++ '"' :: brackets.map Bracket.closing), tree, read_of_cuts ?_ hr⟩
      rw [String.toList_append, String.toList_ofList, htext]
      simpa using hcuts

theorem exists_read_of_nothing (h : Reading.run true {} (Token.scan 0 text.toList) = .ok []) :
    ∃ more tree, read (text ++ more) = .ok tree := by
  obtain ⟨hrun, -⟩ := (Reading.run_single_iff {} (Nat.zero_le 1)).1 h
  have hr := Reading.finishes_empty_iff.1 (Reading.run_finishes hrun)
  have hcuts := Token.cuts_scan 0 _ hr.unterminated_not_mem
  have hatom : Cuts ['a'] [.atom "a"] :=
    (Spells.atom (List.cons_ne_nil 'a' []) (by simp [Token.plain_iff]; decide)).cuts (by simp [Token.EndsBefore]) .done
  refine ⟨"\na", .atom "a", read_of_cuts ?_ (hr.append (.atom .nil))⟩
  rw [String.toList_append]
  exact hcuts.append_line hatom

/-- How a reason starts that lies in a token of the text. -/
inductive FinalReason : String → Prop
  | unbalanced (rest : String) : FinalReason ("unbalanced " ++ rest)
  | mismatched (expected found : String) : FinalReason ("expected " ++ expected ++ " but found " ++ found)
  | trailing (rest : String) : FinalReason ("unexpected input after expression " ++ rest)

inductive EarlyReason : String → Prop
  | unclosed (rest : String) : EarlyReason ("missing " ++ rest)
  | unterminated : EarlyReason "unterminated string literal"
  | nothing : EarlyReason "no expression found"

def quotedClosing (bracket : Bracket) : String :=
  "'" ++ bracket.closing.toString ++ "'"

theorem message_unbalanced (bracket : Bracket) :
    (ReadFlaw.unbalanced bracket).message = "unbalanced " ++ quotedClosing bracket := by
  have hquote : "unbalanced '" = "unbalanced " ++ "'" := by decide
  change "unbalanced '" ++ _ ++ _ = _
  rw [hquote, quotedClosing]
  simp only [String.append_assoc]

theorem message_mismatched (expected found : Bracket) :
    (ReadFlaw.mismatched expected found).message =
      "expected " ++ quotedClosing expected ++ " but found " ++ quotedClosing found := by
  have hexpected : "expected '" = "expected " ++ "'" := by decide
  have hfound : "' but found '" = "'" ++ " but found " ++ "'" := by decide
  change "expected '" ++ _ ++ "' but found '" ++ _ ++ _ = _
  rw [hexpected, hfound, quotedClosing, quotedClosing]
  simp only [String.append_assoc]

theorem message_unclosed (bracket : Bracket) :
    (ReadFlaw.unclosed bracket).message = "missing " ++ quotedClosing bracket := by
  have hquote : "missing '" = "missing " ++ "'" := by decide
  change "missing '" ++ _ ++ _ = _
  rw [hquote, quotedClosing]
  simp only [String.append_assoc]

theorem finalReason_message (h : flaw.isFinal = true) : FinalReason flaw.message := by
  cases flaw with
  | trailing tree => exact .trailing _
  | unbalanced bracket =>
    rw [message_unbalanced]
    exact .unbalanced _
  | mismatched expected found =>
    rw [message_mismatched]
    exact .mismatched _ _
  | unclosed | unterminated | nothing => cases h

theorem earlyReason_message (h : flaw.isFinal = false) : EarlyReason flaw.message := by
  cases flaw with
  | trailing | unbalanced | mismatched => cases h
  | unclosed bracket =>
    rw [message_unclosed]
    exact .unclosed _
  | unterminated => exact .unterminated
  | nothing => exact .nothing

/-- No reason is of both kinds. -/
theorem not_finalReason_of_earlyReason {reason : String} (h : EarlyReason reason) : ¬FinalReason reason := by
  intro hf
  generalize hr : reason = found at hf
  have hl := congrArg String.toList hr
  cases h <;> cases hf <;> simp at hl

theorem isFinal_iff : flaw.isFinal = true ↔ FinalReason flaw.message := by
  refine ⟨finalReason_message, fun h ↦ ?_⟩
  by_contra hf
  exact not_finalReason_of_earlyReason (earlyReason_message (Bool.eq_false_iff.2 hf)) h

theorem isFinal_eq_false_iff : flaw.isFinal = false ↔ EarlyReason flaw.message := by
  refine ⟨earlyReason_message, fun h ↦ ?_⟩
  rw [← Bool.not_eq_true, isFinal_iff]
  exact not_finalReason_of_earlyReason h

theorem eq_unclosed_of_message {rest : String} (h : flaw.message = "missing " ++ rest) :
    ∃ bracket, flaw = .unclosed bracket ∧ rest = quotedClosing bracket := by
  have hf : flaw.isFinal = false := by
    rw [isFinal_eq_false_iff, h]
    exact .unclosed rest
  cases flaw with
  | trailing | unbalanced | mismatched => cases hf
  | unclosed bracket =>
    rw [message_unclosed] at h
    have hl := congrArg String.toList h
    refine ⟨bracket, rfl, String.ext ?_⟩
    simpa using hl.symm
  | unterminated =>
    have hl : "unterminated string literal".toList = ("missing " ++ rest).toList := congrArg String.toList h
    simp at hl
  | nothing =>
    have hl : "no expression found".toList = ("missing " ++ rest).toList := congrArg String.toList h
    simp at hl

theorem eq_unterminated_of_message (h : flaw.message = "unterminated string literal") : flaw = .unterminated := by
  have hf : flaw.isFinal = false := by
    rw [isFinal_eq_false_iff, h]
    exact .unterminated
  cases flaw with
  | trailing | unbalanced | mismatched => cases hf
  | unclosed bracket =>
    rw [message_unclosed] at h
    have hl := congrArg String.toList h
    simp at hl
  | unterminated => rfl
  | nothing =>
    have hl : "no expression found".toList = "unterminated string literal".toList := congrArg String.toList h
    simp at hl

/-- Where a text cannot be read, either nothing written after it changes what is wrong and where, or something
written after it makes it a text that is read; what is left open is found where it starts. -/
theorem read_final_or_completable {problem : Problem} (h : read text = .error problem) :
    ∃ (offset : Nat) (reason : String), problem = .unreadable offset reason text ∧
      (FinalReason reason ∨ EarlyReason reason) ∧
      (FinalReason reason → offset < text.length ∧
        ∀ more, read (text ++ more) = .error (.unreadable offset reason (text ++ more))) ∧
      (EarlyReason reason → ∃ more tree, read (text ++ more) = .ok tree) ∧
      (∀ rest, reason = "missing " ++ rest →
        ∃ bracket, rest = quotedClosing bracket ∧ LeavesOpen text.toList offset bracket) ∧
      (reason = "unterminated string literal" → LeavesQuoted text.toList offset) := by
  rcases exists_of_read_error h with ⟨rfl, hrun⟩ | ⟨offset, flaw, rfl, hrun⟩
  · refine ⟨0, ReadFlaw.nothing.message, rfl, .inr .nothing, ?_, ?_, ?_, ?_⟩
    · intro hr
      exact absurd hr (not_finalReason_of_earlyReason .nothing)
    · intro _
      exact exists_read_of_nothing hrun
    · intro rest hr
      obtain ⟨bracket, hflaw, -⟩ := eq_unclosed_of_message hr
      cases hflaw
    · intro hr
      cases eq_unterminated_of_message hr
  · have hfails := fails_of_run hrun
    refine ⟨offset, flaw.message, rfl, ?_, ?_, ?_, ?_, ?_⟩
    · cases hf : flaw.isFinal with
      | true => exact .inl (finalReason_message hf)
      | false => exact .inr (earlyReason_message hf)
    · intro hr
      exact read_append_of_final (isFinal_iff.2 hr) hrun
    · intro hr
      have hf := isFinal_eq_false_iff.2 hr
      cases flaw with
      | trailing | unbalanced | mismatched => cases hf
      | unclosed bracket => exact (leavesOpen_of_fails hfails).2
      | unterminated => exact (leavesQuoted_of_fails hfails).2
      | nothing => exact absurd hfails Reading.not_fails_nothing
    · intro rest hr
      obtain ⟨bracket, rfl, hrest⟩ := eq_unclosed_of_message hr
      exact ⟨bracket, hrest, (leavesOpen_of_fails hfails).1⟩
    · intro hr
      obtain rfl := eq_unterminated_of_message hr
      exact (leavesQuoted_of_fails hfails).1

theorem read_final_or_completable_bracket :
    read "(a [b ; c" = .error (unreadable "(a [b ; c" 3 (.unclosed .square)) ∧
      (∃ more tree, read ("(a [b ; c" ++ more) = .ok tree) ∧ LeavesOpen "(a [b ; c".toList 3 .square := by
  have hscan : Token.scan 0 "(a [b ; c".toList =
      [⟨0, .opening .round⟩, ⟨1, .atom "a"⟩, ⟨3, .opening .square⟩, ⟨4, .atom "b"⟩] := by
    cbv
  have hread : read "(a [b ; c" = .error (unreadable "(a [b ; c" 3 (.unclosed .square)) := by
    rw [read, hscan]
    rfl
  obtain ⟨offset, reason, hp, -, -, hmore, hopen, -⟩ := read_final_or_completable hread
  rw [unreadable, message_unclosed] at hp
  obtain ⟨hoffset, hreason, -⟩ := Problem.unreadable.inj hp
  obtain rfl : 3 = offset := Int.ofNat.inj hoffset
  subst hreason
  refine ⟨hread, hmore (.unclosed _), ?_⟩
  obtain ⟨bracket, hrest, hopen⟩ := hopen _ rfl
  cases bracket with
  | round => exact absurd hrest (by decide)
  | square => exact hopen

end Tree

end TypeAlgebra
