import TypeAlgebra.Proofs.Grammar
import TypeAlgebra.Proofs.Lines

namespace TypeAlgebra

namespace Text

variable {c mark : Char} {cs rest before after body comment : List Char}

theorem splitChars_of_not_mem (h : mark ∉ cs) : splitChars mark cs = [cs] := by
  induction cs with
  | nil => rfl
  | cons c cs ih =>
    obtain ⟨hc, hcs⟩ := not_or.1 (mt List.mem_cons.2 h)
    rw [splitChars, ih hcs]
    exact if_neg (Ne.symm hc)

theorem lines_of_not_mem {line : String} (h : '\n' ∉ line.toList) : lines line = [line] := by
  rw [lines, split, splitChars_of_not_mem h, List.map_singleton, String.ofList_toList]

theorem dropWhile_append_of_ne_nil {p : Char → Bool} (h : cs.dropWhile p ≠ []) :
    (cs ++ rest).dropWhile p = cs.dropWhile p ++ rest := by
  rw [List.dropWhile_append, if_neg (by simpa using h)]

/-- Blanks at the end of a text with a comment are blanks of the comment. -/
theorem dropBlanks_comment (before comment : List Char) :
    ∃ shorter ⊆ comment, ((before ++ ';' :: comment).reverse.dropWhile isBlank).reverse =
      before ++ ';' :: shorter := by
  refine ⟨(comment.reverse.dropWhile isBlank).reverse, ?_, ?_⟩
  · intro c hc
    exact List.mem_reverse.1 ((List.dropWhile_sublist _).subset (List.mem_reverse.1 hc))
  · rw [List.reverse_append, List.reverse_cons, List.append_assoc, List.dropWhile_append]
    split
    · next h =>
      have hnil : comment.reverse.dropWhile isBlank = [] := by simpa using h
      rw [hnil, List.singleton_append, List.dropWhile_cons_of_neg (by decide)]
      simp
    · simp

theorem exists_blanks (cs : List Char) :
    ∃ blanks, (∀ c ∈ blanks, isBlank c = true) ∧ cs = (cs.reverse.dropWhile isBlank).reverse ++ blanks := by
  refine ⟨(cs.reverse.takeWhile isBlank).reverse, ?_, ?_⟩
  · intro c hc
    exact List.mem_takeWhile_imp (List.mem_reverse.1 hc)
  · rw [← List.reverse_append, List.takeWhile_append_dropWhile, List.reverse_reverse]

inductive Remark : List Char → Prop
  | comment {comment : List Char} : '\n' ∉ comment → Remark (';' :: comment)
  | blank {c : Char} {cs : List Char} : isBlank c = true → Remark cs → Remark (c :: cs)

theorem remark_append {blanks : List Char} (hb : ∀ c ∈ blanks, isBlank c = true) (h : Remark rest) :
    Remark (blanks ++ rest) := by
  induction blanks with
  | nil => exact h
  | cons c blanks ih =>
    obtain ⟨hc, hb⟩ := List.forall_mem_cons.1 hb
    exact .blank hc (ih hb)

theorem trimChars_comment (h : trimChars before ≠ []) (hn : '\n' ∉ comment) :
    ∃ remark, Remark remark ∧ trimChars (before ++ ';' :: comment) = trimChars before ++ remark := by
  have hd : before.dropWhile isBlank ≠ [] := by
    intro hnil
    exact h (by rw [trimChars, hnil]; rfl)
  obtain ⟨shorter, hs, ht⟩ := dropBlanks_comment (before.dropWhile isBlank) comment
  obtain ⟨blanks, hb, he⟩ := exists_blanks (before.dropWhile isBlank)
  refine ⟨blanks ++ ';' :: shorter, remark_append hb (.comment fun hm ↦ hn (hs hm)), ?_⟩
  rw [trimChars, dropWhile_append_of_ne_nil hd, ht, trimChars, ← List.append_assoc, ← he]

theorem length_le_of_cutChars? {mark : List Char} (h : cutChars? mark cs = some (before, after)) :
    mark.length ≤ cs.length := by
  induction cs generalizing before after with
  | nil =>
    unfold cutChars? at h
    split at h
    · next hm => rw [List.isEmpty_iff.1 hm]
    · cases h
  | cons c cs ih =>
    unfold cutChars? at h
    split at h
    · next hp => exact (List.isPrefixOf_iff_prefix.1 hp).length_le
    · obtain ⟨⟨before', after'⟩, hcut, -⟩ := Option.map_eq_some_iff.1 h
      exact (ih hcut).trans (Nat.le_succ _)

theorem suffix_of_cutChars? {mark : List Char} (h : cutChars? mark cs = some (before, after)) :
    after <:+ cs := by
  induction cs generalizing before after with
  | nil =>
    unfold cutChars? at h
    split at h
    · cases h
      exact List.suffix_rfl
    · cases h
  | cons c cs ih =>
    unfold cutChars? at h
    split at h
    · cases h
      exact List.drop_suffix _ _
    · obtain ⟨⟨before', after'⟩, hcut, he⟩ := Option.map_eq_some_iff.1 h
      cases he
      exact (ih hcut).trans (List.suffix_cons c cs)

/-- A text that goes on is cut at the same place, if it is cut at all before it goes on. -/
theorem cutChars?_append {mark : List Char} (h : cutChars? mark cs = some (before, after)) (rest : List Char) :
    cutChars? mark (cs ++ rest) = some (before, after ++ rest) := by
  induction cs generalizing before with
  | nil =>
    unfold cutChars? at h
    split at h
    · next hm =>
      cases h
      rw [List.isEmpty_iff.1 hm]
      cases rest <;> rfl
    · cases h
  | cons c cs ih =>
    have hlength := length_le_of_cutChars? h
    rw [List.cons_append]
    unfold cutChars? at h ⊢
    by_cases hp : mark.isPrefixOf (c :: cs) = true
    · rw [if_pos hp] at h
      cases h
      have hprefix := (List.isPrefixOf_iff_prefix.1 hp).trans (List.prefix_append (c :: cs) rest)
      rw [← List.cons_append, if_pos (List.isPrefixOf_iff_prefix.2 hprefix),
        List.drop_append_of_le_length hlength]
    · rw [if_neg hp] at h
      obtain ⟨⟨before', after'⟩, hcut, he⟩ := Option.map_eq_some_iff.1 h
      cases he
      have hnot : ¬mark.isPrefixOf (c :: (cs ++ rest)) = true := by
        intro hq
        apply hp
        rw [List.isPrefixOf_iff_prefix] at hq ⊢
        exact List.prefix_of_prefix_length_le hq (List.prefix_append (c :: cs) rest) hlength
      rw [if_neg hnot, ih hcut]
      rfl

end Text

namespace Token

open TypeAlgebra.Text (Remark isBlank)

variable {cs remark : List Char}

theorem scan_remark (h : Remark remark) (offset : Nat) : scan offset remark = [] := by
  induction h generalizing offset with
  | comment hn =>
    have hall : ∀ c ∈ _, decide (c ≠ '\n') = true := fun c hc ↦ decide_eq_true (ne_of_mem_of_not_mem hc hn)
    rw [scan, if_neg (by decide), if_pos rfl, List.dropWhile_eq_nil_iff.2 hall, scan]
  | blank hb _ ih => rw [scan, if_pos hb, ih]

theorem remark_breaks (h : Remark remark) : Breaks remark := by
  cases h with
  | comment => exact breaks_cons (by decide)
  | blank hb => exact breaks_cons (by rw [isDelimiter, hb, Bool.or_true])

theorem takeWhile_append_breaks (hr : Breaks remark) :
    (cs ++ remark).takeWhile (!isDelimiter ·) = cs.takeWhile (!isDelimiter ·) ∧
      (cs ++ remark).dropWhile (!isDelimiter ·) = cs.dropWhile (!isDelimiter ·) ++ remark := by
  induction cs with
  | nil => exact @span_word [] remark nofun hr
  | cons c cs ih =>
    cases hd : isDelimiter c <;> simp [hd, ih.1, ih.2]

/-- A comment at the end of a text without comments and string literals makes no difference to its tokens. -/
theorem scan_append_remark (hq : '"' ∉ cs) (hs : ';' ∉ cs) (hr : Remark remark) (offset : Nat) :
    scan offset (cs ++ remark) = scan offset cs := by
  have tail {d c : Char} {cs : List Char} (h : d ∉ c :: cs) : d ∉ cs := List.not_mem_of_not_mem_cons h
  fun_induction scan offset cs with
  | case1 => exact scan_remark hr _
  | case2 offset c cs hb ih =>
    rw [List.cons_append, scan, if_pos hb]
    exact ih (tail hq) (tail hs)
  | case3 => exact absurd List.mem_cons_self hs
  | case4 offset cs _ _ ih =>
    rw [← ih (tail hq) (tail hs)]
    exact scan_bracket_opening .round offset
  | case5 offset cs _ _ _ ih =>
    rw [← ih (tail hq) (tail hs)]
    exact scan_bracket_opening .square offset
  | case6 offset cs _ _ _ _ ih =>
    rw [← ih (tail hq) (tail hs)]
    exact scan_bracket_closing .round offset
  | case7 offset cs _ _ _ _ _ ih =>
    rw [← ih (tail hq) (tail hs)]
    exact scan_bracket_closing .square offset
  | case8 => exact absurd List.mem_cons_self hq
  | case9 => exact absurd List.mem_cons_self hq
  | case10 offset c cs h₁ h₂ h₃ h₄ h₅ h₆ h₇ word ih =>
    have sub {d : Char} (h : d ∉ c :: cs) : d ∉ cs.dropWhile (!isDelimiter ·) :=
      fun hm ↦ tail h ((List.dropWhile_sublist _).subset hm)
    obtain ⟨htake, hdrop⟩ := @takeWhile_append_breaks cs remark (remark_breaks hr)
    rw [List.cons_append, scan, if_neg h₁, if_neg h₂, if_neg h₃, if_neg h₄, if_neg h₅, if_neg h₆, if_neg h₇]
    simp only [htake, hdrop]
    exact congrArg (_ :: ·) (ih (sub hq) (sub hs))

end Token

inductive SameText {α : Type} : Except Problem α → Except Problem α → Prop
  | ok (a : α) : SameText (.ok a) (.ok a)
  | error {p q : Problem} : p.formatted = q.formatted → SameText (.error p) (.error q)

namespace SameText

variable {α β : Type} {x y : Except Problem α}

theorem refl (x : Except Problem α) : SameText x x := by
  cases x with
  | ok a => exact .ok a
  | error p => exact .error rfl

theorem bind {f g : α → Except Problem β} (h : SameText x y) (hf : ∀ a, SameText (f a) (g a)) :
    SameText (x >>= f) (y >>= g) := by
  cases h with
  | ok a => exact hf a
  | error hp => exact .error hp

/-- What is done with a result gives the same texts from the same texts. -/
theorem of_bind {f : α → Except Failure β} {a b : Except Problem β} (h : SameText x y)
    (ha : a.mapError .problem = x.mapError .problem >>= f) (hb : b.mapError .problem = y.mapError .problem >>= f) :
    SameText a b := by
  cases h with
  | ok r =>
    have hab : a.mapError Failure.problem = b.mapError .problem := ha.trans hb.symm
    cases a <;> cases b <;> cases hab
    · exact .error rfl
    · exact .ok _
  | error hp =>
    cases a <;> cases ha
    cases b <;> cases hb
    exact .error hp

end SameText

theorem Tree.read_sameText {text written : String} (h : Token.scan 0 written.toList = Token.scan 0 text.toList) :
    SameText (read written) (read text) := by
  unfold read
  rw [h]
  split
  · exact .ok _
  · exact .error rfl
  · exact .error rfl

namespace Operator

variable {line left right : String} {operator : Operator}

theorem cut?_of_split? (h : split? line = some (operator, left, right)) :
    Text.cut? (" " ++ operator.symbol ++ " ") line = some (left, right) := by
  obtain ⟨op, -, ho⟩ := List.exists_of_findSome?_eq_some h
  obtain ⟨⟨l, r⟩, hcut, he⟩ := Option.map_eq_some_iff.1 ho
  cases he
  exact hcut

end Operator

namespace Step

open TypeAlgebra.Text (Remark)

variable {limit : Int64} {text written : String} {remark : List Char} {a b : Except Problem String}

structure Remarked (text written : String) : Prop where
  quoteless : '"' ∉ text.toList
  bare : ';' ∉ text.toList
  written : ∃ remark, Remark remark ∧ written.toList = text.toList ++ remark

theorem Remarked.denoteText (h : Remarked text written) (limit : Int64) :
    SameText (Parser.denoteText limit written) (Parser.denoteText limit text) := by
  obtain ⟨remark, hr, hw⟩ := h.written
  have hscan : Token.scan 0 written.toList = Token.scan 0 text.toList := by
    rw [hw]
    exact Token.scan_append_remark h.quoteless h.bare hr 0
  exact (Tree.read_sameText hscan).bind fun tree ↦ .refl _

/-- The right side of an operator has the comment after it, and the left side is not concerned. -/
theorem Remarked.cut {mark left right left' right' : String} (h : Remarked text written)
    (hcut : Text.cut? mark text = some (left, right)) (hcut' : Text.cut? mark written = some (left', right')) :
    left' = left ∧ Remarked right right' := by
  obtain ⟨remark, hr, hw⟩ := h.written
  obtain ⟨⟨before, after⟩, hc, he⟩ := Option.map_eq_some_iff.1 hcut
  cases he
  have hc' := Text.cutChars?_append hc remark
  rw [Text.cut?, hw, hc'] at hcut'
  cases hcut'
  have hsub := (Text.suffix_of_cutChars? hc).subset
  refine ⟨rfl, ?_, ?_, remark, hr, ?_⟩
  · rw [String.toList_ofList]
    exact fun hm ↦ h.quoteless (hsub hm)
  · rw [String.toList_ofList]
    exact fun hm ↦ h.bare (hsub hm)
  · rw [String.toList_ofList, String.toList_ofList]

theorem Remarked.answers (h : Remarked text written)
    (hop : (Operator.split? written).map (·.1) = (Operator.split? text).map (·.1))
    (ha : Answers limit written a) (hb : Answers limit text b) : SameText a b := by
  have hva := ha.symm.trans (evaluate_eq_value written { limit }).1
  have hvb := hb.symm.trans (evaluate_eq_value text { limit }).1
  unfold value at hva hvb
  cases hs : Operator.split? text with
  | none =>
    rw [hs] at hop hvb
    rw [Option.map_eq_none_iff.1 hop] at hva
    exact (h.denoteText limit).of_bind hva hvb
  | some found =>
    obtain ⟨operator, left, right⟩ := found
    rw [hs] at hop hvb
    obtain ⟨⟨operator', left', right'⟩, hs', rfl⟩ := Option.map_eq_some_iff.1 hop
    rw [hs'] at hva
    obtain ⟨rfl, hright⟩ := h.cut (Operator.cut?_of_split? hs) (Operator.cut?_of_split? hs')
    have hpair : SameText (Parser.denotePair limit left' right') (Parser.denotePair limit left' right) :=
      (SameText.refl _).bind fun s ↦ (hright.denoteText limit).bind fun t ↦ .refl _
    exact hpair.of_bind hva hvb

end Step

/-- A check of a line and a conversation of this line alone come to the same: nothing, a result, or a problem with
the same text. -/
inductive Concordant (limit : Int64) (line : String) : Prop
  | silence : checkLines limit line = .ok {} → converse limit [.line line] = .ok {} → Concordant limit line
  | result (text : String) : checkLines limit line = .ok { out := "1: " ++ text ++ "\n" } →
      converse limit [.line line] = .ok { out := text ++ "\n" } → Concordant limit line
  | problem (p q : Problem) : p.formatted = q.formatted →
      checkLines limit line = .ok { err := "1: " ++ p.formatted ++ "\n", problems := [p] } →
      converse limit [.line line] = .ok { err := q.formatted ++ "\n" } → Concordant limit line

namespace Check

variable {limit : Int64} {line : String}

theorem toList_essence (line : String) :
    (essence line).toList = Text.trimChars (line.toList.takeWhile (· ≠ ';')) := by
  rw [essence, Text.trim, Text.takeUntil, String.toList_ofList, String.toList_ofList]

theorem essence_of_not_mem (h : ';' ∉ line.toList) : essence line = Text.trim line := by
  have hall : ∀ c ∈ line.toList, decide (c ≠ ';') = true :=
    fun c hc ↦ decide_eq_true (ne_of_mem_of_not_mem hc h)
  rw [essence, Text.takeUntil, List.takeWhile_eq_self_iff.2 hall, String.ofList_toList]

theorem mem_of_mem_trimChars {c : Char} {cs : List Char} (h : c ∈ Text.trimChars cs) : c ∈ cs := by
  have h' := (List.dropWhile_sublist _).subset (List.mem_reverse.1 h)
  exact (List.dropWhile_sublist _).subset (List.mem_reverse.1 h')

/-- Where there is something before a comment, the line is that and the comment, blanks at its ends apart. -/
theorem essence_remarked (hn : '\n' ∉ line.toList) (hq : '"' ∉ line.toList) (hs : ';' ∈ line.toList)
    (he : essence line ≠ "") : Step.Remarked (essence line) (Text.trim line) := by
  have hsub {c : Char} (h : c ∈ (essence line).toList) : c ∈ line.toList.takeWhile (· ≠ ';') := by
    rw [toList_essence] at h
    exact mem_of_mem_trimChars h
  refine ⟨fun h ↦ hq ((List.takeWhile_sublist _).subset (hsub h)), fun h ↦ ?_, ?_⟩
  · simpa using List.mem_takeWhile_imp (hsub h)
  · obtain ⟨before, comment, hline, hbefore⟩ := List.eq_append_cons_of_mem hs
    have hall : ∀ c ∈ before, decide (c ≠ ';') = true :=
      fun c hc ↦ decide_eq_true (ne_of_mem_of_not_mem hc hbefore)
    have hessence : (essence line).toList = Text.trimChars before := by
      rw [toList_essence, hline, List.takeWhile_append_of_pos hall, List.takeWhile_cons_of_neg (by simp),
        List.append_nil]
    have hne : Text.trimChars before ≠ [] := by
      intro hnil
      rw [hnil] at hessence
      exact he (String.toList_eq_nil_iff.1 hessence)
    have hnewline : '\n' ∉ comment := by
      intro hm
      exact hn (by rw [hline]; simp [hm])
    obtain ⟨remark, hr, ht⟩ := Text.trimChars_comment hne hnewline
    refine ⟨remark, hr, ?_⟩
    rw [Text.trim, String.toList_ofList, hline, ht, hessence]

theorem checkLines_of_isEmpty (hn : '\n' ∉ line.toList) (h : essence line = "") :
    checkLines limit line = .ok {} := by
  rw [checkLines, Text.lines_of_not_mem hn, run_of_isEmpty {} 1 (by rw [h]; rfl)]
  rfl

theorem checkLines_of_answers {answer : Except Problem String} (hn : '\n' ∉ line.toList)
    (h : essence line ≠ "") (ha : Step.Answers limit (essence line) answer) :
    checkLines limit line = .ok (Report.extend {} [⟨1, answer⟩]) := by
  obtain ⟨next, -, hr⟩ := @run_of_answers { limit } {} 1 line answer (by simpa using h) ha []
  rw [checkLines, Text.lines_of_not_mem hn, hr]
  rfl

end Check

namespace Converse

variable {limit : Int64} {line : String}

theorem converse_of_isEmpty (h : Text.trim line = "") : converse limit [.line line] = .ok {} := by
  rw [converse, run, reply_of_isEmpty h]
  rfl

theorem converse_of_answers {answer : Except Problem String} (he : Text.trim line ≠ "")
    (hq : Text.trim line ≠ ":q") (ha : Step.Answers limit (Text.trim line) answer) :
    converse limit [.line line] = .ok (Transcript.extend {} [answer]) := by
  obtain ⟨next, -, hr⟩ := @run_of_answers { limit } line answer {} he hq ha []
  rw [converse, hr]
  rfl

end Converse

theorem concordant_of_answers {limit : Int64} {line : String} {a b : Except Problem String} (h : SameText a b)
    (ha : converse limit [.line line] = .ok (Converse.Transcript.extend {} [a]))
    (hb : checkLines limit line = .ok (Check.Report.extend {} [⟨1, b⟩])) : Concordant limit line := by
  have hfirst : toString 1 ++ ": " = "1: " := by decide +kernel
  cases h with
  | ok text =>
    refine .result text ?_ ?_
    · rw [hb, ← hfirst]
      simp [Check.Report.extend, Check.Entry.out, Check.Entry.err, Check.Entry.problems]
    · rw [ha]
      simp [Converse.Transcript.extend, Converse.outOf, Converse.errOf]
  | @error p q hp =>
    refine .problem q p hp.symm ?_ ?_
    · rw [hb, ← hfirst]
      simp [Check.Report.extend, Check.Entry.out, Check.Entry.err, Check.Entry.problems]
    · rw [ha]
      simp [Converse.Transcript.extend, Converse.outOf, Converse.errOf]

/--
Check and conversation agree on a line without string literals, unless it has a comment before which nothing stands
or because of which another operator is found, or one where there is none.
-/
theorem check_concordant (limit : Int64) {line : String} (hn : '\n' ∉ line.toList) (hq : '"' ∉ line.toList)
    (hw : Text.trim line ≠ ":q")
    (h : ';' ∈ line.toList → Check.essence line ≠ "" ∧
      (Operator.split? (Text.trim line)).map (·.1) = (Operator.split? (Check.essence line)).map (·.1)) :
    Concordant limit line := by
  by_cases hs : ';' ∈ line.toList
  · obtain ⟨he, hop⟩ := h hs
    have hr := Check.essence_remarked hn hq hs he
    have hne : Text.trim line ≠ "" := by
      obtain ⟨remark, -, ht⟩ := hr.written
      intro hnil
      rw [hnil] at ht
      exact he (String.toList_eq_nil_iff.1 (List.append_eq_nil_iff.1 ht.symm).1)
    obtain ⟨a, ha⟩ := Step.exists_answer limit (Text.trim line)
    obtain ⟨b, hb⟩ := Step.exists_answer limit (Check.essence line)
    exact concordant_of_answers (hr.answers hop ha hb) (Converse.converse_of_answers hne hw ha)
      (Check.checkLines_of_answers hn he hb)
  · have hessence := Check.essence_of_not_mem hs
    by_cases he : Text.trim line = ""
    · exact .silence (Check.checkLines_of_isEmpty hn (hessence.trans he)) (Converse.converse_of_isEmpty he)
    · obtain ⟨a, ha⟩ := Step.exists_answer limit (Text.trim line)
      exact concordant_of_answers (.refl a) (Converse.converse_of_answers he hw ha)
        (Check.checkLines_of_answers hn (by rwa [hessence]) (by rwa [hessence]))

-- There is another operator after the semicolon, but it is the operator before it that both find.
theorem check_concordant_operator_in_comment :
    Concordant 0 " number <: (union number x) ;  or number <: x" ∧ Concordant 0 "(union x x) ; x" ∧
      Concordant 0 "(union x ; x" :=
  ⟨check_concordant 0 (by decide +kernel) (by decide +kernel) (by decide +kernel) (by decide +kernel),
    check_concordant 0 (by decide +kernel) (by decide +kernel) (by decide +kernel) (by decide +kernel),
    check_concordant 0 (by decide +kernel) (by decide +kernel) (by decide +kernel) (by decide +kernel)⟩

/-- An operator in a comment is applied in a conversation. -/
theorem check_not_concordant_commented_operator :
    ¬∀ (limit : Int64) (line : String), '\n' ∉ line.toList → '"' ∉ line.toList → Text.trim line ≠ ":q" →
      Concordant limit line := by
  intro h
  have hc := h 0 "number ; a <: b" (by decide +kernel) (by decide +kernel) (by decide +kernel)
  have hcheck : (checkLines 0 "number ; a <: b").map Check.Report.out = .ok "1: number\n" := by decide +kernel
  have hconverse : (converse 0 [.line "number ; a <: b"]).map Converse.Transcript.out = .ok "false\n" := by
    decide +kernel
  cases hc with
  | silence hs =>
    rw [hs] at hcheck
    have hout : "" = "1: number\n" := Except.ok.inj hcheck
    exact absurd hout (by decide)
  | result text hr hr' =>
    rw [hr] at hcheck
    rw [hr'] at hconverse
    have hout : "1: " ++ text ++ "\n" = "1: number\n" := Except.ok.inj hcheck
    have hout' : text ++ "\n" = "false\n" := Except.ok.inj hconverse
    rw [String.append_assoc, hout'] at hout
    exact absurd hout (by decide +kernel)
  | problem p q _ hp =>
    rw [hp] at hcheck
    have hout : "" = "1: number\n" := Except.ok.inj hcheck
    exact absurd hout (by decide)

end TypeAlgebra
