import TypeAlgebra.Proofs.Composition

namespace TypeAlgebra

namespace Token

inductive Spells : List Char → Token → Prop
  | opening (bracket : Bracket) : Spells [bracket.opening] (.opening bracket)
  | closing (bracket : Bracket) : Spells [bracket.closing] (.closing bracket)
  | literal {written body : List Char} : Escapes written body →
      Spells ('"' :: (written ++ ['"'])) (.literal (.ofList body))
  | atom {word : List Char} : word ≠ [] → (∀ c ∈ word, Plain c) → Spells word (.atom (.ofList word))

def EndsBefore : Token → List Char → Prop
  | .atom _, rest => ∀ c ∈ rest.head?, ¬Plain c
  | _, _ => True

/-- The tokens of a text that starts at an index, with the indices where they stand. -/
inductive Marks : Nat → List Char → List Lexeme → Prop
  | done (offset : Nat) : Marks offset [] []
  | blank {offset : Nat} {c : Char} {rest : List Char} {lexemes : List Lexeme} : Text.isBlank c = true →
      Marks (offset + 1) rest lexemes → Marks offset (c :: rest) lexemes
  | comment {offset : Nat} {body rest : List Char} {lexemes : List Lexeme} : '\n' ∉ body →
      (∀ c ∈ rest.head?, c = '\n') → Marks (offset + 1 + body.length) rest lexemes →
      Marks offset (';' :: (body ++ rest)) lexemes
  | token {offset : Nat} {piece rest : List Char} {token : Token} {lexemes : List Lexeme} : Spells piece token →
      token.EndsBefore rest → Marks (offset + piece.length) rest lexemes →
      Marks offset (piece ++ rest) (⟨offset, token⟩ :: lexemes)
  | unterminated {offset : Nat} {rest : List Char} : literalBody? rest = none →
      Marks offset ('"' :: rest) [⟨offset, .unterminated⟩]

variable {c : Char} {cs piece rest : List Char} {token : Token} {tokens more : List Token} {lexeme : Lexeme}
  {lexemes : List Lexeme} {offset : Nat}

theorem endsBefore_of_head? (h : ∀ c ∈ rest.head?, ¬Plain c) : token.EndsBefore rest := by
  cases token with
  | atom => exact h
  | _ => trivial

/-- Whether a token is continued depends on the next character only. -/
theorem EndsBefore.cons (h : token.EndsBefore (c :: rest)) (more : List Char) : token.EndsBefore (c :: more) := by
  cases token with
  | atom => exact h
  | _ => trivial

theorem EndsBefore.append {head more : List Char} (h : token.EndsBefore (head ++ more))
    (hr : ∀ c ∈ rest.head?, ¬Plain c) : token.EndsBefore (head ++ rest) := by
  cases head with
  | nil => exact endsBefore_of_head? hr
  | cons c head => exact h.cons _

theorem Spells.exists_cons (h : Spells piece token) :
    ∃ c after, piece = c :: after ∧ Text.isBlank c = false ∧ c ≠ ';' := by
  cases h with
  | opening bracket => exact ⟨_, [], rfl, by cases bracket <;> decide, by cases bracket <;> decide⟩
  | closing bracket => exact ⟨_, [], rfl, by cases bracket <;> decide, by cases bracket <;> decide⟩
  | literal => exact ⟨'"', _, rfl, by decide, by decide⟩
  | atom hne hp =>
    obtain ⟨c, after, rfl⟩ := List.exists_cons_of_ne_nil hne
    obtain ⟨hb, hc⟩ := hp c List.mem_cons_self
    refine ⟨c, after, rfl, hb, ?_⟩
    rintro rfl
    exact hc (by decide)

theorem Spells.cuts (h : Spells piece token) (he : token.EndsBefore rest) (hc : Cuts rest tokens) :
    Cuts (piece ++ rest) (token :: tokens) := by
  cases h with
  | opening bracket => exact .opening bracket hc
  | closing bracket => exact .closing bracket hc
  | literal hw =>
    rw [List.cons_append, List.append_assoc, List.singleton_append]
    exact .literal hw hc
  | atom hne hp => exact .atom hne hp he hc

theorem scan_quoted {written body : List Char} (h : Escapes written body) (offset : Nat) :
    scan offset ('"' :: (written ++ '"' :: rest)) =
      ⟨offset, .literal (.ofList body)⟩ :: scan (offset + (written.length + 2)) rest := by
  have hb : literalBody? (written ++ '"' :: rest) = some (body, rest) := literalBody?_of_escapes h
  rw [scan, if_neg (by decide), if_neg (by decide), if_neg (by decide), if_neg (by decide),
    if_neg (by decide), if_neg (by decide), if_pos rfl]
  split
  · next hn => cases hn.symm.trans hb
  · next hs =>
    cases hs.symm.trans hb
    congr 2
    simp only [List.length_append, List.length_cons]
    omega

theorem Spells.scan (h : Spells piece token) (he : token.EndsBefore rest) (offset : Nat) :
    scan offset (piece ++ rest) = ⟨offset, token⟩ :: scan (offset + piece.length) rest := by
  cases h with
  | opening bracket => exact scan_bracket_opening bracket offset
  | closing bracket => exact scan_bracket_closing bracket offset
  | literal hw =>
    rw [List.cons_append, List.append_assoc, List.singleton_append, scan_quoted hw, List.length_cons,
      List.length_append, List.length_singleton]
  | atom hne hp =>
    have hw : IsWord (String.ofList piece) := by
      refine ⟨?_, ?_⟩
      · rwa [String.toList_ofList]
      · rw [String.toList_ofList]
        exact fun c hc ↦ plain_iff.1 (hp c hc)
    have hs := scan_word hw (breaks_of_head? he) offset
    rwa [String.toList_ofList] at hs

theorem spells_word (h : Plain c) (cs : List Char) :
    Spells (c :: cs.takeWhile (!isDelimiter ·)) (.atom (.ofList (c :: cs.takeWhile (!isDelimiter ·)))) ∧
      ∀ d ∈ (cs.dropWhile (!isDelimiter ·)).head?, ¬Plain d := by
  constructor
  · refine .atom (List.cons_ne_nil _ _) (List.forall_mem_cons.2 ⟨h, fun d hd ↦ plain_iff.2 ?_⟩)
    simpa using List.mem_takeWhile_imp hd
  · intro d hd
    rw [plain_iff, Bool.not_eq_false]
    simpa using head?_dropWhile hd

theorem scan_comment {body : List Char} (hb : '\n' ∉ body) (hr : ∀ c ∈ rest.head?, c = '\n') (offset : Nat) :
    scan offset (';' :: (body ++ rest)) = scan (offset + 1 + body.length) rest := by
  obtain ⟨htake, hdrop⟩ := span_comment hb hr
  rw [scan, if_neg (by decide), if_pos rfl, htake, hdrop]

theorem scan_unterminated (h : literalBody? rest = none) (offset : Nat) :
    scan offset ('"' :: rest) = [⟨offset, .unterminated⟩] := by
  rw [scan, if_neg (by decide), if_neg (by decide), if_neg (by decide), if_neg (by decide),
    if_neg (by decide), if_neg (by decide), if_pos rfl]
  split
  · rfl
  · next hs => cases h.symm.trans hs

/-- The tokens of a text that are marked are those that are found by scanning it. -/
theorem Marks.scan (h : Marks offset cs lexemes) : scan offset cs = lexemes := by
  induction h with
  | done offset => rw [Token.scan]
  | blank hb _ ih => rw [Token.scan, if_pos hb, ih]
  | comment hb hr _ ih => rw [scan_comment hb hr, ih]
  | token hs he _ ih => rw [hs.scan he, ih]
  | unterminated hn => exact scan_unterminated hn _

theorem marks_scan (offset : Nat) (cs : List Char) : Marks offset cs (scan offset cs) := by
  fun_induction scan offset cs with
  | case1 offset => exact .done offset
  | case2 _ _ _ hb ih => exact .blank hb ih
  | case3 offset cs _ ih =>
    have hb : '\n' ∉ cs.takeWhile (· ≠ '\n') := by
      intro hm
      simpa using List.mem_takeWhile_imp hm
    have hr : ∀ c ∈ (cs.dropWhile (· ≠ '\n')).head?, c = '\n' := by
      intro c hc
      simpa using head?_dropWhile hc
    have hmark := Marks.comment hb hr ih
    rwa [List.takeWhile_append_dropWhile] at hmark
  | case4 _ _ _ _ ih => exact .token (.opening .round) trivial ih
  | case5 _ _ _ _ _ ih => exact .token (.opening .square) trivial ih
  | case6 _ _ _ _ _ _ ih => exact .token (.closing .round) trivial ih
  | case7 _ _ _ _ _ _ _ ih => exact .token (.closing .square) trivial ih
  | case8 _ _ hn => exact .unterminated hn
  | case9 offset cs body after hb _ _ _ _ _ _ ih =>
    obtain ⟨written, hw, rfl⟩ := escapes_of_literalBody? hb
    have hlength : offset + 1 + ((written ++ '"' :: after).length - after.length) =
        offset + ('"' :: (written ++ ['"'])).length := by
      simp only [List.length_append, List.length_cons, List.length_nil]
      omega
    rw [hlength] at ih
    have hmark := Marks.token (.literal hw) trivial ih
    rw [hlength]
    rwa [List.cons_append, List.append_assoc, List.singleton_append] at hmark
  | case10 offset c cs h₁ h₂ h₃ h₄ h₅ h₆ h₇ word ih =>
    have hc : Plain c := by
      refine ⟨by simpa using h₁, ?_⟩
      simp [h₂, h₃, h₄, h₅, h₆, h₇]
    obtain ⟨hs, hr⟩ := spells_word hc cs
    have hlength : offset + 1 + word.length = offset + (c :: word).length := by
      rw [List.length_cons]
      omega
    rw [hlength] at ih ⊢
    have hmark := Marks.token hs (endsBefore_of_head? hr) ih
    rwa [List.cons_append, List.takeWhile_append_dropWhile] at hmark

theorem Marks.cuts (h : Marks offset cs lexemes) (hu : Token.unterminated ∉ lexemes.map Lexeme.token) :
    Cuts cs (lexemes.map Lexeme.token) := by
  rw [← h.scan] at hu ⊢
  exact cuts_scan offset cs hu

theorem Marks.eq_nil (h : Marks offset [] lexemes) : lexemes = [] := by
  rw [← h.scan, Token.scan]

/-- A token stands at an index of the text. -/
theorem Marks.offset_of_mem (h : Marks offset cs lexemes) (hm : lexeme ∈ lexemes) :
    offset ≤ lexeme.offset ∧ lexeme.offset < offset + cs.length := by
  induction h with
  | done => cases hm
  | blank _ _ ih =>
    have := ih hm
    rw [List.length_cons]
    omega
  | comment _ _ _ ih =>
    have := ih hm
    rw [List.length_cons, List.length_append]
    omega
  | token hs _ _ ih =>
    obtain ⟨c, after, rfl, -⟩ := hs.exists_cons
    rw [List.length_append]
    rcases List.mem_cons.1 hm with rfl | hm
    · simp only [List.length_cons]
      omega
    · have := ih hm
      omega
  | unterminated =>
    obtain rfl := List.mem_singleton.1 hm
    simp only [List.length_cons]
    omega

/-- The tokens of a text without comments and string literals, and of what follows it. -/
theorem Marks.append {more : List Lexeme} (h : Marks offset cs lexemes) (hc : ';' ∉ cs) (hq : '"' ∉ cs)
    (hr : ∀ c ∈ rest.head?, ¬Plain c) (h' : Marks (offset + cs.length) rest more) :
    Marks offset (cs ++ rest) (lexemes ++ more) := by
  induction h with
  | done => exact h'
  | @blank offset c after lexemes hb _ ih =>
    refine .blank hb (ih (List.not_mem_of_not_mem_cons hc) (List.not_mem_of_not_mem_cons hq) ?_)
    rwa [List.length_cons, Nat.add_comm after.length, ← Nat.add_assoc] at h'
  | comment => exact absurd List.mem_cons_self hc
  | @token offset piece after token lexemes hs he _ ih =>
    rw [List.append_assoc, List.cons_append]
    rw [← List.append_nil after] at he
    refine .token hs (he.append hr) (ih (mt (List.mem_append_right _) hc) (mt (List.mem_append_right _) hq) ?_)
    rwa [List.length_append, ← Nat.add_assoc] at h'
  | unterminated => exact absurd List.mem_cons_self hq

/-- In a text without comments, a quote belongs to a string literal. -/
theorem Marks.quote_not_mem (h : Marks offset cs lexemes) (hc : ';' ∉ cs)
    (hl : ∀ lexeme ∈ lexemes, lexeme.token ≠ .unterminated ∧ ∀ text, lexeme.token ≠ .literal text) : '"' ∉ cs := by
  induction h with
  | done => exact List.not_mem_nil
  | blank hb _ ih =>
    refine List.not_mem_cons_of_ne_of_not_mem ?_ (ih (List.not_mem_of_not_mem_cons hc) hl)
    rintro rfl
    cases hb
  | comment => exact absurd List.mem_cons_self hc
  | token hs _ _ ih =>
    obtain ⟨hd, htl⟩ := List.forall_mem_cons.1 hl
    refine mt List.mem_append.1 (not_or.2 ⟨?_, ih (mt (List.mem_append_right _) hc) htl⟩)
    cases hs with
    | opening bracket => cases bracket <;> decide
    | closing bracket => cases bracket <;> decide
    | literal => exact absurd rfl (hd.2 _)
    | atom _ hp => exact fun hm ↦ (hp '"' hm).2 (by decide)
  | unterminated => exact absurd rfl (hl _ List.mem_cons_self).1

/-- The text is cut into these tokens, whatever follows it that does not continue its last atom. -/
def Leads (cs : List Char) (tokens : List Token) : Prop :=
  ∀ rest more, (∀ c ∈ rest.head?, ¬Plain c) → Cuts rest more → Cuts (cs ++ rest) (tokens ++ more)

inductive Begins : List Char → Lexeme → List Lexeme → Prop
  | token {offset : Nat} {piece rest : List Char} {token : Token} {lexemes : List Lexeme} : Spells piece token →
      Marks (offset + piece.length) rest lexemes → Begins (piece ++ rest) ⟨offset, token⟩ lexemes
  | unterminated {offset : Nat} {rest : List Char} : literalBody? rest = none →
      Begins ('"' :: rest) ⟨offset, .unterminated⟩ []

theorem Begins.exists_cons (h : Begins cs lexeme lexemes) :
    ∃ c after, cs = c :: after ∧ Text.isBlank c = false := by
  cases h with
  | token hs _ =>
    obtain ⟨c, after, rfl, hc, -⟩ := hs.exists_cons
    exact ⟨c, _, rfl, hc⟩
  | unterminated => exact ⟨'"', _, rfl, by decide⟩

theorem Begins.of_opening {bracket : Bracket} (h : Begins cs ⟨offset, .opening bracket⟩ lexemes) :
    ∃ rest, cs = bracket.opening :: rest ∧ Marks (offset + 1) rest lexemes := by
  cases h with
  | token hs hm =>
    cases hs
    exact ⟨_, rfl, hm⟩

theorem Begins.of_unterminated (h : Begins cs ⟨offset, .unterminated⟩ lexemes) :
    ∃ rest, cs = '"' :: rest ∧ literalBody? rest = none := by
  cases h with
  | token hs _ => cases hs
  | unterminated hn => exact ⟨_, rfl, hn⟩

/-- Each token has a text before it that is cut into the tokens before it. -/
theorem Marks.exists_leads {before after : List Lexeme} (h : Marks offset cs lexemes)
    (hl : lexemes = before ++ lexeme :: after) :
    ∃ head rest, cs = head ++ rest ∧ lexeme.offset = offset + head.length ∧
      Leads head (before.map Lexeme.token) ∧ Begins rest lexeme after := by
  induction h generalizing before with
  | done => simp at hl
  | @blank offset c _ _ hb _ ih =>
    obtain ⟨head, rest, rfl, ho, hlead, hbegin⟩ := ih hl
    refine ⟨c :: head, rest, rfl, ?_, fun after more ha hm ↦ ?_, hbegin⟩
    · rw [ho, List.length_cons]
      omega
    · exact .blank hb (hlead after more ha hm)
  | @comment offset body _ _ hb hr _ ih =>
    obtain ⟨head, rest, rfl, ho, hlead, hbegin⟩ := ih hl
    -- the comment ends before the token, since the token does not start with the end of the line
    cases head with
    | nil =>
      obtain ⟨c, after, rfl, hc⟩ := hbegin.exists_cons
      obtain rfl := hr c rfl
      exact absurd hc (by decide)
    | cons c head =>
      refine ⟨';' :: (body ++ c :: head), rest, by simp, ?_, fun after more ha hm ↦ ?_, hbegin⟩
      · rw [ho]
        simp only [List.length_cons, List.length_append]
        omega
      · rw [List.cons_append, List.append_assoc]
        exact .comment hb hr (hlead after more ha hm)
  | @token offset piece _ token lexemes hs he hmarks ih =>
    cases before with
    | nil =>
      obtain ⟨rfl, rfl⟩ := List.cons_eq_cons.1 hl
      exact ⟨[], _, rfl, rfl, fun _ _ _ hm ↦ hm, .token hs hmarks⟩
    | cons first before =>
      obtain ⟨rfl, rfl⟩ := List.cons_eq_cons.1 hl
      obtain ⟨head, rest, rfl, ho, hlead, hbegin⟩ := ih rfl
      refine ⟨piece ++ head, rest, (List.append_assoc ..).symm, ?_, fun after more ha hm ↦ ?_, hbegin⟩
      · rw [ho, List.length_append, Nat.add_assoc]
      · rw [List.append_assoc, List.map_cons, List.cons_append]
        exact hs.cuts (he.append ha) (hlead after more ha hm)
  | unterminated hn =>
    obtain ⟨rfl, hcons⟩ := List.append_eq_singleton_iff.1 hl.symm |>.resolve_right (by simp)
    obtain ⟨rfl, rfl⟩ := List.cons_eq_cons.1 hcons
    exact ⟨[], _, rfl, rfl, fun _ _ _ hm ↦ hm, .unterminated hn⟩

inductive Continues : List Lexeme → List Lexeme → Prop
  | done (more : List Lexeme) : Continues [] more
  | next (lexeme : Lexeme) {lexemes more : List Lexeme} : Continues lexemes more →
      Continues (lexeme :: lexemes) (lexeme :: more)
  | atom {offset : Nat} {text : String} {token : Token} {more : List Lexeme} :
      Continues [⟨offset, .atom text⟩] (⟨offset, token⟩ :: more)
  | unterminated {offset : Nat} {token : Token} {more : List Lexeme} :
      Continues [⟨offset, .unterminated⟩] (⟨offset, token⟩ :: more)

theorem scan_plain (h : Plain c) (offset : Nat) (cs : List Char) :
    ∃ token more, scan offset (c :: cs) = ⟨offset, token⟩ :: more := by
  obtain ⟨hs, hr⟩ := spells_word h cs
  have hscan := hs.scan (endsBefore_of_head? hr) offset
  rw [List.cons_append, List.takeWhile_append_dropWhile] at hscan
  exact ⟨_, _, hscan⟩

theorem scan_quote (offset : Nat) (cs : List Char) :
    ∃ token more, scan offset ('"' :: cs) = ⟨offset, token⟩ :: more := by
  cases hb : literalBody? cs with
  | none => exact ⟨_, _, scan_unterminated hb offset⟩
  | some found =>
    obtain ⟨written, hw, rfl⟩ := escapes_of_literalBody? hb
    exact ⟨_, _, scan_quoted hw offset⟩

theorem Marks.continues (h : Marks offset cs lexemes) (more : List Char) :
    Continues lexemes (Token.scan offset (cs ++ more)) := by
  induction h with
  | done => exact .done _
  | blank hb _ ih => rwa [List.cons_append, Token.scan, if_pos hb]
  | @comment offset body rest lexemes hb hr hmarks ih =>
    cases rest with
    | nil =>
      rw [hmarks.eq_nil]
      exact .done _
    | cons c rest =>
      have hscan := scan_comment hb (show ∀ d ∈ (c :: rest ++ more).head?, d = '\n' from hr) offset
      rw [List.cons_append, List.append_assoc, hscan]
      exact ih
  | @token offset piece rest token lexemes hs he hmarks ih =>
    rw [List.append_assoc]
    by_cases hmore : token.EndsBefore (rest ++ more)
    · rw [hs.scan hmore]
      exact .next _ ih
    · -- an atom at the end of the text goes on after it
      obtain rfl : rest = [] := by
        cases rest with
        | nil => rfl
        | cons c rest => exact absurd (he.cons _) hmore
      rw [hmarks.eq_nil]
      cases hs with
      | opening => exact absurd trivial hmore
      | closing => exact absurd trivial hmore
      | literal => exact absurd trivial hmore
      | atom hne hp =>
        obtain ⟨c, word, rfl⟩ := List.exists_cons_of_ne_nil hne
        obtain ⟨token, after, hscan⟩ := scan_plain (hp c List.mem_cons_self) offset (word ++ more)
        rw [List.nil_append, List.cons_append, hscan]
        exact .atom
  | @unterminated offset rest hn =>
    obtain ⟨token, after, hs⟩ := scan_quote offset (rest ++ more)
    rw [List.cons_append, hs]
    exact .unterminated

end Token

end TypeAlgebra
